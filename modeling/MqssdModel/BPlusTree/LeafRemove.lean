import MqssdModel.BPlusTree.LeafLevel
import MqssdModel.BPlusTree.LeafSpecs
import MqssdModel.BPlusTree.RemoveRight

namespace MqssdModel.BPlusTree.LeafRemove

open Data.Arrays Data.Moves Data.Rows Data.Chain Data.TotalRun Machine Caching Routines Removal
  LeafSpecs Views Shape Allocation Ordering Pending Splitting Search Steps Descent LeafLevel
  InsertCascade InsertSplit Siblings RemoveCascade Rebalance Neighbours Sides RemoveInner
  RemoveSides RemoveRight

/-- The entry for `k` has been taken out of the entries `m`. -/
def Removed (k : ℤ) (m m' : List (ℤ × ℤ)) : Prop :=
  ∃ m₁ v m₂, m = m₁ ++ (k, v) :: m₂ ∧ m' = m₁ ++ m₂

/-- A tree with the entries `m` without the one for `k`, in a file of `size` bytes or a bit more. -/
def Reduced (cf : Config) (size d k : ℤ) (m : List (ℤ × ℤ)) (t : Tree) : Prop :=
  ∃ st w us, Rep t st [] ∧ Good cf st w us d ∧ Removed k m (entries st w) ∧
    Longer cf us.length size st.fileSize

variable {cf : Config} {t : Tree} {st st₁ st' : Store} {nc lc rc pc : Ptr} {n n₁ m pn : Node}
  {a b a' b' U U₁ U₂ : Row} {us : List Row} {o g x x' e p d k v key : ℤ} {c cp cg ce : Content}
  {ks₁ ks₂ vs₁ vs₂ pk₁ pk₂ pv₁ pv₂ ks vs : List ℤ} {ropt lopt : List (Ptr × Node)}
  {lsib rsib : Option Ptr}

theorem spot_of_leaf (h : AtLeaf cf st a o b (U :: us) d k n) :
    ∃ U₁ p U₂ cp pk₁ pk₂ pv₁ pv₂, U = U₁ ++ .node p :: U₂ ∧
      Spot cf st [] a o b U₁ p U₂ us cp pk₁ pk₂ pv₁ pv₂ n (n.key 0) := by
  have hnd := h.good.alloc.nodup.of_append_left.of_append_left
  obtain ⟨U₁, p, U₂, cp, pk₁, pk₂, pv₁, pv₂, rfl, hplace⟩ := h.good.upper.locate hnd
  have hone := h.ok.one
  have hkey : n.key 0 ∈ (block n).keys := by
    rw [h.leaf.block_eq]
    exact apply_mem_front n.key le_rfl (by simp only [Block.content] at hone; omega)
  have ho := h.good.ordered
  rw [Ordered, h.marks_eq] at ho
  obtain ⟨-, ho', hlt⟩ := List.pairwise_append.mp ho
  have hmark := List.mem_map_of_mem (f := fun x : ℤ ↦ 2 * x + 1) hkey
  refine ⟨U₁, p, U₂, cp, pk₁, pk₂, pv₁, pv₂, rfl, h.good.upper, hplace, h.good.leaves.linked,
    h.good.alloc, fun v hv ↦ ?_, h.good.ordered.seps, h.disk, h.self, fun x hx ↦ ?_, fun x hx ↦ ?_⟩
  · obtain ⟨cv, hcv, -⟩ := h.good.leaves.leaf v hv
    exact isSome_of_content hcv
  · have hsep : x ∈ seps a := by
      rw [hplace.left, seps_append, seps_lefts hplace.left_length]
      exact List.mem_append_right _ hx
    have := hlt _ (mem_marks_sep hsep) _ (List.mem_append_left _ hmark)
    omega
  · have hsep : x ∈ seps b := by
      rw [hplace.right, seps_append, seps_rights hplace.right_length]
      exact List.mem_append_left _ hx
    have := (List.pairwise_append.mp ho').2.2 _ hmark _ (mem_marks_sep hsep)
    omega

theorem leafOk_of_block {w : Row} {i : ℤ} {n' : Node}
    (hb : block n' = { block n with count := i, keys := ks, vals := vs })
    (hkind : (block n).kind = .leaf) (hcount : i = vs.length) (hkeys : ks.length = vs.length)
    (hone : 1 ≤ vs.length) (hcap : (vs.length : ℤ) ≤ cf.maxEntries)
    (hhalf : 1 < w.length → (cf.maxEntries + 1) / 2 ≤ vs.length) :
    LeafOk cf w (Block.content (block n')) := by
  rw [hb]
  exact ⟨hkind, hcount, hkeys, hone, hcap, hhalf⟩

section Shift

variable (hgood : Good cf st (a ++ .node g :: .sep x :: .node e :: b)
    ((U₁ ++ .node p :: U₂) :: us) d)
  (h : Shifted st st' g e p [] cg ce { cp with keys := ks₁ ++ x' :: ks₂ })

include hgood h

theorem content_beside {v : ℤ} (hv : v ∈ nodes a ++ nodes b) : content st' v = content st v := by
  have hnd := hgood.alloc.nodup.of_append_left
  have hrow : v ∈ nodes (a ++ .node g :: .sep x :: .node e :: b) := by
    simp only [nodes_append, nodes_cons_node, nodes_cons_sep, List.mem_append, List.mem_cons] at hv ⊢
    tauto
  have hnd' := hnd.of_append_left
  simp only [nodes_append, nodes_cons_node, nodes_cons_sep, List.nodup_middle, List.nodup_cons,
    List.mem_append, List.mem_cons] at hnd' hv
  refine h.content v ?_ ?_ ?_
  · rintro rfl
    exact hnd'.1 (by tauto)
  · rintro rfl
    exact hnd'.2.1 hv
  · rintro rfl
    exact List.disjoint_of_nodup_append hnd hrow (List.mem_append_left _ mem_nodes_middle)

theorem entries_shifted : entries st' (a ++ .node g :: .sep x' :: .node e :: b) =
    entries st a ++ (cg.keys.zip cg.vals ++ (ce.keys.zip ce.vals ++ entries st b)) := by
  rw [entries_append, entries_cons_node, entries_cons_sep, entries_cons_node, pairsAt_eq h.left,
    pairsAt_eq h.right,
    entries_congr fun v hv ↦ content_beside hgood h (List.mem_append_left _ hv),
    entries_congr fun v hv ↦ content_beside hgood h (List.mem_append_right _ hv)]

/-- An entry has been moved between two leaves of one parent. -/
theorem good_of_shifted (hpair : Pair cf st a g x e b U₁ p U₂ cp ks₁ ks₂ vs₁ vs₂)
    (hokg : ∀ {w}, LeafOk cf w cg) (hoke : ∀ {w}, LeafOk cf w ce)
    (hord : (marks st a ++ ((cg.keys.map fun y ↦ 2 * y + 1) ++ 2 * x' ::
      ((ce.keys.map fun y ↦ 2 * y + 1) ++ marks st b))).Pairwise (· < ·)) :
    Good cf st' (a ++ .node g :: .sep x' :: .node e :: b) ((U₁ ++ .node p :: U₂) :: us) d := by
  have hnd := hgood.alloc.nodup.of_append_left
  have hrow : nodes (a ++ .node g :: .sep x' :: .node e :: b) =
      nodes (a ++ .node g :: .sep x :: .node e :: b) := by simp
  have hge {v : ℤ} (hv : v ∈ offsets ((U₁ ++ .node p :: U₂) :: us)) : v ≠ g ∧ v ≠ e := by
    constructor <;> rintro rfl <;> exact List.disjoint_of_nodup_append hnd (by simp) hv
  refine ⟨?_, ⟨fun v hv ↦ ?_, ?_⟩, ?_, ?_, ?_⟩
  · refine Siblings.Upper.resep hgood.upper hpair hnd.of_append_right
      (congrArg Header.root h.header) h.parent (h.links p) (fun v hv hvp ↦ ?_) fun v _ ↦
        h.par v List.not_mem_nil
    exact h.disk v (hge hv).1 (hge hv).2 hvp List.not_mem_nil
  · by_cases hvg : v = g
    · exact ⟨cg, hvg ▸ h.left, hokg⟩
    by_cases hve : v = e
    · exact ⟨ce, hve ▸ h.right, hoke⟩
    have hside : v ∈ nodes a ++ nodes b := by
      simp only [nodes_append, nodes_cons_node, nodes_cons_sep, List.mem_append, List.mem_cons]
        at hv ⊢
      tauto
    obtain ⟨c, hc, hok⟩ := hgood.leaves.leaf v (hrow ▸ hv)
    exact ⟨c, (content_beside hgood h hside).trans hc, LeafOk.mono hok fun _ ↦ by simp; omega⟩
  · rw [hrow]
    exact hgood.leaves.linked.congr fun v _ ↦ h.links v
  · rw [Ordered, marks_append, marks_cons_node, marks_cons_sep, marks_cons_node, keysAt_eq h.left,
      keysAt_eq h.right,
      marks_congr fun v hv ↦ content_beside hgood h (List.mem_append_left _ hv),
      marks_congr fun v hv ↦ content_beside hgood h (List.mem_append_right _ hv)]
    exact hord
  · rw [hrow]
    exact hgood.alloc.of_header h.header
  · have hl : st'.level = st.level := congrArg Header.level h.header
    rw [hl]
    exact hgood.level

end Shift

section Merge

/-- Two leaves of one parent have become one, and the levels above are in order again. -/
theorem good_of_merged (hgood : Good cf st (a ++ .node g :: .sep x :: .node e :: b)
      (U :: us) d) (h : Merged st st₁ a g e b [] cg)
    (hgrown : Grown cf st₁ ([] ++ nodes (a ++ .node g :: b)) (a ++ .node g :: b)
      (st.level - (U :: us).length) t)
    (hok : LeafOk cf (a ++ .node g :: b) cg)
    (hord : (marks st a ++ ((cg.keys.map fun y ↦ 2 * y + 1) ++ marks st b)).Pairwise (· < ·)) :
    ∃ st' us', Rep t st' [] ∧ Good cf st' (a ++ .node g :: b) us' d ∧
      entries st' (a ++ .node g :: b) =
        entries st a ++ (cg.keys.zip cg.vals ++ entries st b) ∧
      Longer cf us'.length st.fileSize st'.fileSize := by
  obtain ⟨st', us', hrep, hup, halloc, hkept, hlevel⟩ := hgrown
  have hnd := hgood.alloc.nodup.of_append_left.of_append_left
  simp only [nodes_append, nodes_cons_node, nodes_cons_sep, List.nodup_middle, List.nodup_cons,
    List.mem_append, List.mem_cons] at hnd
  have hcg : content st' g = some cg := (hkept.content g (by simp)).trans h.self
  have hside {v : ℤ} (hv : v ∈ nodes a ++ nodes b) : content st' v = content st v := by
    rw [List.mem_append] at hv
    refine (hkept.content v ?_).trans (h.content v ?_)
    · simp only [nodes_append, nodes_cons_node, List.nil_append, List.mem_append, List.mem_cons]
      tauto
    · rintro rfl
      exact hnd.1 (by tauto)
  have hsize : st₁.fileSize = st.fileSize := congrArg Header.fileSize h.header
  refine ⟨st', us', hrep, ⟨hup, ⟨fun v hv ↦ ?_, ?_⟩, ?_, halloc, hlevel.trans hgood.level⟩, ?_,
    hsize ▸ hkept.size⟩
  · by_cases hvg : v = g
    · exact ⟨cg, hvg ▸ hcg, hok⟩
    have hv' : v ∈ nodes a ++ nodes b := by
      simp only [nodes_append, nodes_cons_node, List.mem_append, List.mem_cons] at hv ⊢
      tauto
    obtain ⟨c, hc, hok'⟩ := hgood.leaves.leaf v (by
      simp only [nodes_append, nodes_cons_node, nodes_cons_sep, List.mem_append, List.mem_cons]
        at hv' ⊢
      tauto)
    exact ⟨c, (hside hv').trans hc, LeafOk.mono hok' fun _ ↦ by simp; omega⟩
  · rw [nodes_append, nodes_cons_node]
    refine h.linked.congr fun v hv ↦ hkept.links v ?_
    rwa [List.nil_append, nodes_append, nodes_cons_node]
  · rw [Ordered, marks_append, marks_cons_node, keysAt_eq hcg,
      marks_congr fun v hv ↦ hside (List.mem_append_left _ hv),
      marks_congr fun v hv ↦ hside (List.mem_append_right _ hv)]
    exact hord
  · rw [entries_append, entries_cons_node, pairsAt_eq hcg,
      entries_congr fun v hv ↦ hside (List.mem_append_left _ hv),
      entries_congr fun v hv ↦ hside (List.mem_append_right _ hv)]

end Merge

end MqssdModel.BPlusTree.LeafRemove
