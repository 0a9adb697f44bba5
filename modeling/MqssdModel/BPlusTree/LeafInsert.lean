import MqssdModel.BPlusTree.InsertSplit
import MqssdModel.BPlusTree.LeafLevel
import MqssdModel.BPlusTree.LeafSpecs

namespace MqssdModel.BPlusTree.LeafInsert

open Data.Arrays Data.Rows Data.Chain Data.TotalRun Machine Caching Routines Insertion InnerSpecs
  LeafSpecs Views Shape Allocation Ordering Pending Splitting Search Steps Descent LeafLevel
  InsertCascade InsertSplit

/-- The entry `(k, v)` has been put among the entries `m`. -/
def Inserted (k v : ℤ) (m m' : List (ℤ × ℤ)) : Prop :=
  ∃ m₁ m₂, m = m₁ ++ m₂ ∧ m' = m₁ ++ (k, v) :: m₂

/-- A tree with the entries `m` and, besides, `(k, v)`. Its file, of `size` bytes before, has got at
most one block longer for every level. -/
def Extended (cf : Config) (size d k v : ℤ) (m : List (ℤ × ℤ)) (t : Tree) : Prop :=
  ∃ st w us, Rep t st [] ∧ Good cf st w us d ∧ Inserted k v m (entries st w) ∧
    Longer cf (us.length + 1) size st.fileSize

variable {cf : Config} {t : Tree} {st st₁ : Store} {lc rc nc : Ptr} {l r n n' : Node}
  {a b : Row} {o d k v sk : ℤ} {us : List Row} {ks₁ ks₂ vs₁ vs₂ K V : List ℤ} {sp : ℕ}

section Gap

variable (h : AtLeaf cf st a o b us d k n) (hkeys : (block n).keys = ks₁ ++ ks₂)
  (hvals : (block n).vals = vs₁ ++ vs₂) (hlen : ks₁.length = vs₁.length)
  (h₁ : ∀ x ∈ ks₁, x < k) (h₂ : ∀ x ∈ ks₂, k < x)

include h

theorem marks_gap (hkeys : (block n).keys = ks₁ ++ ks₂) (h₁ : ∀ x ∈ ks₁, x < k)
    (h₂ : ∀ x ∈ ks₂, k < x) : (marks st a ++
      (((ks₁ ++ k :: ks₂).map fun x ↦ 2 * x + 1) ++ marks st b)).Pairwise (· < ·) := by
  obtain ⟨ha, hb⟩ := h.focus.marks h.good.ordered
  have ho := h.good.ordered
  rw [Ordered, h.marks_eq, hkeys, List.map_append, List.append_assoc, ← List.append_assoc] at ho
  rw [List.map_append, List.append_assoc, ← List.append_assoc, List.map_cons, List.cons_append]
  refine pairwise_insert ho (fun x hx ↦ ?_) fun x hx ↦ ?_
  · rcases List.mem_append.mp hx with hx | hx
    · exact ha x hx
    · obtain ⟨y, hy, rfl⟩ := List.mem_map.mp hx
      have := h₁ y hy
      omega
  · rcases List.mem_append.mp hx with hx | hx
    · obtain ⟨y, hy, rfl⟩ := List.mem_map.mp hx
      have := h₂ y hy
      omega
    · exact hb x hx

theorem inserted_gap (hkeys : (block n).keys = ks₁ ++ ks₂) (hvals : (block n).vals = vs₁ ++ vs₂)
    (hlen : ks₁.length = vs₁.length) : Inserted k v (entries st (a ++ .node o :: b))
      (entries st a ++ ((ks₁ ++ k :: ks₂).zip (vs₁ ++ v :: vs₂) ++ entries st b)) := by
  refine ⟨entries st a ++ ks₁.zip vs₁, ks₂.zip vs₂ ++ entries st b, ?_, ?_⟩
  · rw [h.entries_eq, hkeys, hvals, List.zip_append hlen]
    simp
  · rw [List.zip_append hlen, List.zip_cons_cons]
    simp

include hkeys hvals hlen h₁ h₂

theorem simpleInsert_run {m : ℕ} (hm : (block n).vals.length = m) (hroom : m < cf.maxEntries)
    (hrep : Rep t st [(nc, n)]) :
    Runs (do
      leafSimpleInsert cf nc k v ks₁.length
      nodeFlush (some nc)
      return (0 : ℤ)) t fun x t' ↦
        x = 0 ∧ Extended cf st.fileSize d k v (entries st (a ++ .node o :: b)) t' := by
  have hle : ks₁.length ≤ m := by
    rw [← hm, ← h.length, hkeys, List.length_append]
    omega
  refine (leafSimpleInsert_run hrep (hm ▸ h.leaf) hle hroom).seq ?_
  rintro _ t₁ ⟨n', h', hb⟩
  have hK : splice (block n).keys ks₁.length [k] 0 = ks₁ ++ k :: ks₂ := by
    rw [hkeys]
    exact splice_append ks₁ [k] [] ks₂
  have hV : splice (block n).vals ks₁.length [v] 0 = vs₁ ++ v :: vs₂ := by
    rw [hvals, hlen]
    exact splice_append vs₁ [v] [] vs₂
  rw [hK, hV] at hb
  have hself : n'.self = o := (congrArg Block.self hb).trans h.self
  refine h'.flush.seq fun _ t₂ h₂' ↦
    runs_pure ⟨rfl, _, a ++ .node o :: b, us, h₂', ?_, ?_, longer_of_eq _ rfl⟩
  · refine h.good_write hself (congrArg Block.parent hb)
      ⟨congrArg Block.prev hb, congrArg Block.next hb⟩ ?_ ?_
    · have hok := h.ok
      have hl := h.length
      rw [hkeys, hvals] at hl
      simp only [hvals, List.length_append] at hm hl
      rw [hb]
      refine ⟨hok.kind, ?_, ?_, ?_, ?_, fun hw ↦ ?_⟩
      · simp only [Block.content, List.length_append, List.length_cons]
        omega
      · simp only [Block.content, List.length_append, List.length_cons]
        omega
      · simp only [Block.content, List.length_append, List.length_cons]
        omega
      · simp only [Block.content, List.length_append, List.length_cons]
        omega
      · have := hok.half hw
        simp only [Block.content, hvals, List.length_append, List.length_cons] at this ⊢
        omega
    · rw [hb]
      exact marks_gap h hkeys h₁ h₂
  · rw [h.entries_write hself, hb]
    exact inserted_gap h hkeys hvals hlen

end Gap

/-- The leaf `o` has been split into `l` and `r`, which hold the keys `K` and values `V`. -/
structure LeafSplit (cf : Config) (st st₁ : Store) (l r : Node) (a : Row) (o : ℤ) (b : Row)
    (us : List Row) (d k : ℤ) (n : Node) (K V : List ℤ) (sp : ℕ) (sk : ℤ) : Prop where
  leaf : AtLeaf cf st a o b us d k n
  header : header st₁ = header (st.alloc cf)
  offsets : l.self = o ∧ r.self = st.fresh ∧ r.parent = invalidOffset ∨
    l.self = st.fresh ∧ r.self = o ∧ l.parent = invalidOffset
  left : Block.content (block l) = ⟨.leaf, sp, K.take sp, V.take sp⟩
  right : Block.content (block r) = ⟨.leaf, (K.length - sp : ℕ), K.drop sp, V.drop sp⟩
  content : ∀ v, v ≠ o → v ≠ st.fresh → content (pending st₁ l r) v = content st v
  par : ∀ v, v ≠ st.fresh → par (pending st₁ l r) v = par st v
  disk : ∀ v, v ∉ nodes (a ++ .node o :: b) → v ≠ st.fresh → v ≠ invalidOffset →
    (pending st₁ l r).disk v = st.disk v
  linked : Linked (links (pending st₁ l r)) invalidOffset
    (nodes a ++ l.self :: r.self :: nodes b) invalidOffset
  present : (st₁.disk o).isSome
  key : (K.drop sp).head? = some sk
  length : K.length = V.length
  full : K.length = cf.maxEntries + 1
  half : sp = K.length / 2
  ordered : (marks st a ++ ((K.map fun x ↦ 2 * x + 1) ++ marks st b)).Pairwise (· < ·)

namespace LeafSplit

variable (h : LeafSplit cf st st₁ l r a o b us d k n K V sp sk)

include h

theorem ne : l.self ≠ r.self := by
  have hf : o ≠ st.fresh := fun he ↦ h.leaf.fresh_notMem.1 (he ▸ mem_nodes_middle)
  rcases h.offsets with ⟨hl, hr, -⟩ | ⟨hl, hr, -⟩
  · rw [hl, hr]
    exact hf
  · rw [hl, hr]
    exact hf.symm

theorem content_left : Views.content (pending st₁ l r) l.self =
    some ⟨.leaf, sp, K.take sp, V.take sp⟩ := by
  rw [content_pending, if_neg h.ne, if_pos rfl, h.left]

theorem content_right : Views.content (pending st₁ l r) r.self =
    some ⟨.leaf, (K.length - sp : ℕ), K.drop sp, V.drop sp⟩ := by
  rw [content_pending, if_pos rfl, h.right]

theorem content_others {v : ℤ} (hv : v ∈ nodes a ++ nodes b) :
    Views.content (pending st₁ l r) v = Views.content st v := by
  obtain ⟨hm, hne⟩ := h.leaf.others_ne hv
  exact h.content v hne fun he ↦ h.leaf.fresh_notMem.1 (he ▸ hm)

theorem marks_others {w : Row} (hw : nodes w ⊆ nodes a ++ nodes b) :
    marks (pending st₁ l r) w = marks st w :=
  marks_congr fun _ hv ↦ h.content_others (hw hv)

theorem entries_others {w : Row} (hw : nodes w ⊆ nodes a ++ nodes b) :
    entries (pending st₁ l r) w = entries st w :=
  entries_congr fun _ hv ↦ h.content_others (hw hv)

theorem ordered_row (hcf : Sized cf) :
    Ordered (pending st₁ l r) (a ++ .node l.self :: .sep sk :: .node r.self :: b) := by
  obtain ⟨K₂, hK₂⟩ := List.head?_eq_some_iff.mp h.key
  have hfull := h.full
  have hhalf := h.half
  have hentries := hcf.entries
  have hne : K.take sp ≠ [] := by
    refine List.ne_nil_of_length_pos ?_
    rw [List.length_take]
    omega
  have ho := h.ordered
  rw [← List.take_append_drop sp K, hK₂] at ho
  have hcut := pairwise_cut _ _ _ ho hne
  rw [Ordered, marks_append, marks_cons_node, marks_cons_sep, marks_cons_node,
    h.marks_others (List.subset_append_left _ _), h.marks_others (List.subset_append_right _ _),
    keysAt_eq h.content_left, keysAt_eq h.content_right]
  dsimp only
  rw [hK₂]
  exact hcut

theorem entries_row : entries (pending st₁ l r) (a ++ .node l.self :: .sep sk :: .node r.self :: b) =
    entries st a ++ (K.zip V ++ entries st b) := by
  have hlen := h.length
  have hzip : (K.take sp).zip (V.take sp) ++ (K.drop sp).zip (V.drop sp) = K.zip V := by
    rw [← List.zip_append (by rw [List.length_take, List.length_take, hlen]),
      List.take_append_drop, List.take_append_drop]
  rw [entries_append, entries_cons_node, entries_cons_sep, entries_cons_node,
    h.entries_others (List.subset_append_left _ _), h.entries_others (List.subset_append_right _ _),
    pairsAt_eq h.content_left, pairsAt_eq h.content_right, ← hzip, List.append_assoc]

theorem perm : (nodes (a ++ .node l.self :: .sep sk :: .node r.self :: b)).Perm
    (st.fresh :: nodes (a ++ .node o :: b)) := by
  simp only [nodes_append, nodes_cons_node, nodes_cons_sep]
  rcases h.offsets with ⟨hl, hr, -⟩ | ⟨hl, hr, -⟩
  · rw [hl, hr]
    exact (List.Perm.append_left _ (.swap st.fresh o _)).trans List.perm_middle
  · rw [hl, hr]
    exact List.perm_middle

theorem upper (hcf : Sized cf) : Upper cf (pending st₁ l r) (a ++ .node o :: b) us := by
  have hroot : st₁.root = st.root := (congrArg Header.root h.header).trans root_alloc
  refine h.leaf.good.upper.congr hroot (fun v hv ↦ ?_) fun v hv ↦ ?_
  · refine h.disk v (fun hm ↦ h.leaf.row_notMem hm hv)
      (fun he ↦ h.leaf.fresh_notMem.2 (he ▸ hv)) ?_
    exact h.leaf.good.alloc.ne_invalid hcf (List.mem_append_right _ hv)
  · exact h.par v fun he ↦ h.leaf.fresh_notMem.1 (he ▸ hv)

theorem pend (hcf : Sized cf) :
    Pend cf st₁ l r sk a b o (st.fresh :: nodes (a ++ .node o :: b)) us where
  upper := h.upper hcf
  which := h.offsets.imp (fun h ↦ ⟨h.1.symm, h.2.2⟩) fun h ↦ ⟨h.2.1.symm, h.2.2⟩
  sorted := (h.ordered_row hcf).seps
  nodup := h.perm.nodup_iff.mpr (List.nodup_cons.mpr
    ⟨h.leaf.fresh_notMem.1, h.leaf.good.alloc.nodup.of_append_left.of_append_left⟩)
  sub := h.perm.subset
  alloc := (h.leaf.good.alloc.alloc hcf).of_header h.header
  present := h.present

theorem leafOk_left (hcf : Sized cf) {w : Row} :
    LeafOk cf w ⟨.leaf, sp, K.take sp, V.take sp⟩ := by
  have := hcf.entries
  have := h.length
  have := h.full
  have := h.half
  have hV : (V.take sp).length = sp := by rw [List.length_take]; omega
  have hK : (K.take sp).length = sp := by rw [List.length_take]; omega
  exact ⟨rfl, by rw [hV], by rw [hV, hK], by rw [hV]; omega, by rw [hV]; omega,
    fun _ ↦ by rw [hV]; omega⟩

theorem leafOk_right (hcf : Sized cf) {w : Row} :
    LeafOk cf w ⟨.leaf, (K.length - sp : ℕ), K.drop sp, V.drop sp⟩ := by
  have := hcf.entries
  have := h.length
  have := h.full
  have := h.half
  have hV : (V.drop sp).length = K.length - sp := by rw [List.length_drop]; omega
  have hK : (K.drop sp).length = K.length - sp := by rw [List.length_drop]
  exact ⟨rfl, by rw [hV], by rw [hV, hK], by rw [hV]; omega, by rw [hV]; omega,
    fun _ ↦ by rw [hV]; omega⟩

theorem leaves (hcf : Sized cf) :
    Leaves cf (pending st₁ l r) (a ++ .node l.self :: .sep sk :: .node r.self :: b) := by
  constructor
  · intro v hv
    simp only [nodes_append, nodes_cons_node, nodes_cons_sep, List.mem_append, List.mem_cons] at hv
    by_cases hl : v = l.self
    · exact ⟨_, hl ▸ h.content_left, h.leafOk_left hcf⟩
    by_cases hr : v = r.self
    · exact ⟨_, hr ▸ h.content_right, h.leafOk_right hcf⟩
    have hv' : v ∈ nodes a ++ nodes b := by
      rw [List.mem_append]
      tauto
    obtain ⟨c, hc, hok⟩ := h.leaf.good.leaves.leaf v (h.leaf.others_ne hv').1
    refine ⟨c, (h.content_others hv').trans hc, LeafOk.mono hok fun _ ↦ ?_⟩
    have hpos : 0 < a.length + b.length := by
      rcases List.mem_append.mp hv' with hv' | hv'
      · have := length_pos_of_mem_nodes hv'
        omega
      · have := length_pos_of_mem_nodes hv'
        omega
    rw [List.length_append, List.length_cons]
    omega
  · simp only [nodes_append, nodes_cons_node, nodes_cons_sep]
    exact h.linked

/-- What the levels above make of the split is a tree again. -/
theorem extended (hcf : Sized cf)
    (hgrown : Grown cf (pending st₁ l r) (st.fresh :: nodes (a ++ .node o :: b))
      (a ++ .node l.self :: .sep sk :: .node r.self :: b) (st₁.level - us.length) t)
    (hm : Inserted k v (entries st (a ++ .node o :: b))
      (entries st a ++ (K.zip V ++ entries st b))) :
    Extended cf st.fileSize d k v (entries st (a ++ .node o :: b)) t := by
  obtain ⟨st', us', hrep, hup, halloc, hkept, hlevel⟩ := hgrown
  have hcont : ∀ v ∈ nodes (a ++ .node l.self :: .sep sk :: .node r.self :: b),
      Views.content st' v = Views.content (pending st₁ l r) v := fun v hv ↦
    hkept.content v (h.perm.subset hv)
  have hsize : (st.alloc cf).fileSize = st₁.fileSize :=
    (congrArg Header.fileSize h.header).symm
  have hgrow : Longer cf 1 st.fileSize st₁.fileSize := hsize ▸ longer_alloc
  refine ⟨st', _, us', hrep, ⟨hup, ⟨fun v hv ↦ ?_, ?_⟩, ?_, ?_, ?_⟩, ?_,
    (hgrow.trans hkept.size).mono (Nat.add_comm _ _).le⟩
  · obtain ⟨c, hc, hok⟩ := (h.leaves hcf).leaf v hv
    exact ⟨c, (hcont v hv).trans hc, hok⟩
  · exact (h.leaves hcf).linked.congr fun v hv ↦ hkept.links v (h.perm.subset hv)
  · rw [Ordered, marks_congr hcont]
    exact h.ordered_row hcf
  · exact halloc.perm (h.perm.symm.append_right _)
  · have hlev : st₁.level = st.level := (congrArg Header.level h.header).trans level_alloc
    have := h.leaf.good.level
    omega
  · rw [entries_congr hcont, h.entries_row]
    exact hm

end LeafSplit

end MqssdModel.BPlusTree.LeafInsert
