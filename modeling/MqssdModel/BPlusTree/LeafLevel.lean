import MqssdModel.BPlusTree.Descent
import MqssdModel.BPlusTree.Splitting

namespace MqssdModel.BPlusTree.LeafLevel

open Data.Arrays Data.Rows Data.Chain Machine Caching Routines Views Shape Allocation Ordering
  Pending Splitting Search Steps Descent

/-- The tree with the leaves `w` and the levels `us` above them; `d` is how far the `level` field
is from the number of those levels. -/
structure Good (cf : Config) (st : Store) (w : Row) (us : List Row) (d : ℤ) : Prop where
  upper : Upper cf st w us
  leaves : Leaves cf st w
  ordered : Ordered st w
  alloc : Alloc cf st (nodes w ++ offsets us)
  level : st.level - us.length = d

/-- The search for `k` has ended at the leaf `o`, read as `n`. -/
structure AtLeaf (cf : Config) (st : Store) (a : Row) (o : ℤ) (b : Row) (us : List Row) (d k : ℤ)
    (n : Node) : Prop where
  good : Good cf st (a ++ .node o :: b) us d
  focus : Focus k a b
  disk : st.disk o = some (block n)
  self : n.self = o

theorem Leaves.lengths {cf : Config} {st : Store} {w : Row} (h : Leaves cf st w) :
    ∀ o ∈ nodes w, ∃ c, content st o = some c ∧ c.keys.length = c.vals.length := fun o ho ↦ by
  obtain ⟨c, hc, hok⟩ := h.leaf o ho
  exact ⟨c, hc, hok.keys⟩

theorem LeafOk.mono {cf : Config} {w w' : Row} {c : Content} (h : LeafOk cf w c)
    (hw : 1 < w'.length → 1 < w.length) : LeafOk cf w' c :=
  ⟨h.kind, h.count, h.keys, h.one, h.cap, fun h' ↦ h.half (hw h')⟩

variable {cf : Config} {st : Store} {a b : Row} {o d k : ℤ} {us : List Row} {n : Node}

namespace AtLeaf

variable (h : AtLeaf cf st a o b us d k n)

include h

theorem content_eq : content st o = some (Block.content (block n)) := by
  rw [Views.content, h.disk]
  rfl

theorem par_eq : par st o = some n.parent := by
  rw [par, h.disk]
  rfl

theorem ok : LeafOk cf (a ++ .node o :: b) (Block.content (block n)) := by
  obtain ⟨c, hc, hok⟩ := h.good.leaves.leaf o mem_nodes_middle
  rw [h.content_eq, Option.some.injEq] at hc
  exact hc ▸ hok

theorem leaf : Leaf n (block n).vals.length := Leaf.of_block h.ok.kind h.ok.count

theorem length : (block n).keys.length = (block n).vals.length := h.ok.keys

theorem keyCount_eq : keyCount n = (block n).vals.length := by
  rw [keyCount, isLeaf, h.leaf.type, h.leaf.children]
  rfl

theorem sorted : (block n).keys.Pairwise (· < ·) := by
  have hs := h.good.ordered.keys (o := o) mem_nodes_middle
  rwa [keysAt_eq h.content_eq] at hs

theorem nodup : (nodes a ++ o :: nodes b).Nodup := by
  have hn := h.good.alloc.nodup.of_append_left.of_append_left
  rwa [nodes_append, nodes_cons_node] at hn

theorem row_notMem {v : ℤ} (hv : v ∈ nodes (a ++ .node o :: b)) : v ∉ offsets us :=
  List.disjoint_of_nodup_append h.good.alloc.nodup.of_append_left hv

theorem others_ne {v : ℤ} (hv : v ∈ nodes a ++ nodes b) :
    v ∈ nodes (a ++ .node o :: b) ∧ v ≠ o := by
  have hn := h.nodup
  rw [List.nodup_middle, List.nodup_cons] at hn
  refine ⟨?_, fun he ↦ hn.1 (he ▸ hv)⟩
  simp only [nodes_append, nodes_cons_node, List.mem_append, List.mem_cons] at hv ⊢
  tauto

theorem ne_invalid (hcf : Sized cf) {v : ℤ} (hv : v ∈ nodes (a ++ .node o :: b)) :
    v ≠ invalidOffset :=
  h.good.alloc.ne_invalid hcf (List.mem_append_left _ hv)

theorem linked : Linked (links st) invalidOffset (nodes a ++ o :: nodes b) invalidOffset := by
  have hl := h.good.leaves.linked
  rwa [nodes_append, nodes_cons_node] at hl

theorem links_eq : n.prev = (nodes a).getLastD invalidOffset ∧
    n.next = (nodes b).headD invalidOffset := by
  have hm := h.linked.middle
  rw [links, h.disk, Option.map_some, Option.some.injEq] at hm
  exact ⟨congrArg Prod.fst hm, congrArg Prod.snd hm⟩

theorem fresh_notMem : st.fresh ∉ nodes (a ++ .node o :: b) ∧ st.fresh ∉ offsets us := by
  have hf := h.good.alloc.fresh_notMem
  rwa [List.mem_append, not_or] at hf

theorem present {v : ℤ} (hcf : Sized cf) (hv : v ∈ nodes (a ++ .node o :: b)) : Present st v := by
  obtain ⟨c, hc, -⟩ := h.good.leaves.leaf v hv
  obtain ⟨bv, hbv, -⟩ := Option.map_eq_some_iff.mp hc
  exact ⟨h.ne_invalid hcf hv, Option.isSome_iff_exists.mpr ⟨bv, hbv⟩⟩

theorem pairs_eq : pairsAt st o = (block n).keys.zip (block n).vals := pairsAt_eq h.content_eq

theorem entries_eq : entries st (a ++ .node o :: b) =
    entries st a ++ ((block n).keys.zip (block n).vals ++ entries st b) := by
  rw [entries_append, entries_cons_node, h.pairs_eq]

theorem marks_eq : marks st (a ++ .node o :: b) =
    marks st a ++ (((block n).keys.map fun x ↦ 2 * x + 1) ++ marks st b) := by
  rw [marks_append, marks_cons_node, keysAt_eq h.content_eq]
  rfl

/-- The keys of the other leaves lie on the two sides of `k`. -/
theorem entries_sides :
    (∀ e ∈ entries st a, e.1 < k) ∧ ∀ e ∈ entries st b, k < e.1 := by
  obtain ⟨ha, hb⟩ := h.focus.marks h.good.ordered
  have hside : ∀ {w' : Row}, (∀ v ∈ nodes w', v ∈ nodes (a ++ .node o :: b)) →
      ∀ e ∈ entries st w', 2 * e.1 + 1 ∈ marks st w' := by
    intro w' hw' e he
    have hsub : ((entries st w').map fun e ↦ 2 * e.1 + 1).Sublist (marks st w') :=
      keys_entries_sublist fun v hv ↦ Leaves.lengths h.good.leaves v (hw' v hv)
    exact hsub.subset (List.mem_map_of_mem (f := fun e : ℤ × ℤ ↦ 2 * e.1 + 1) he)
  constructor
  · intro e he
    have := ha _ (hside (fun o ho ↦ by simp [ho]) e he)
    omega
  · intro e he
    have := hb _ (hside (fun o ho ↦ by simp [ho]) e he)
    omega

/-- The key is in the tree if and only if it is in this leaf. -/
theorem mem_entries : k ∈ (entries st (a ++ .node o :: b)).map Prod.fst ↔ k ∈ (block n).keys := by
  have hzip : ((block n).keys.zip (block n).vals).map Prod.fst = (block n).keys :=
    List.map_fst_zip h.length.le
  obtain ⟨ha, hb⟩ := h.entries_sides
  rw [h.entries_eq, List.map_append, List.map_append, hzip]
  constructor
  · intro hk
    rcases List.mem_append.mp hk with hk | hk
    · obtain ⟨e, he, rfl⟩ := List.mem_map.mp hk
      exact absurd (ha e he) (lt_irrefl _)
    · rcases List.mem_append.mp hk with hk | hk
      · exact hk
      · obtain ⟨e, he, rfl⟩ := List.mem_map.mp hk
        exact absurd (hb e he) (lt_irrefl _)
  · exact fun hk ↦ List.mem_append_right _ (List.mem_append_left _ hk)

/-- The entries of the leaf on both sides of a key that it does not have. -/
theorem exists_gap (hk : k ∉ (block n).keys) : ∃ ks₁ ks₂ vs₁ vs₂, (block n).keys = ks₁ ++ ks₂ ∧
    (block n).vals = vs₁ ++ vs₂ ∧ ks₁.length = vs₁.length ∧ ks₂.length = vs₂.length ∧
    (∀ x ∈ ks₁, x < k) ∧ ∀ x ∈ ks₂, k < x := by
  obtain ⟨ks₁, ks₂, hks, h₁, h₂⟩ := exists_cut h.sorted k
  have hlen := h.length
  rw [hks, List.length_append] at hlen
  refine ⟨ks₁, ks₂, (block n).vals.take ks₁.length, (block n).vals.drop ks₁.length, hks,
    (List.take_append_drop _ _).symm, ?_, ?_, fun x hx ↦ ?_, h₂⟩
  · rw [List.length_take]
    omega
  · rw [List.length_drop]
    omega
  · refine lt_of_le_of_ne (h₁ x hx) fun he ↦ hk ?_
    rw [hks, ← he]
    exact List.mem_append_left _ hx

/-- The entries of the leaf around a key that it has. -/
theorem exists_entry (hk : k ∈ (block n).keys) : ∃ ks₁ ks₂ vs₁ v vs₂,
    (block n).keys = ks₁ ++ k :: ks₂ ∧ (block n).vals = vs₁ ++ v :: vs₂ ∧
    ks₁.length = vs₁.length ∧ ks₂.length = vs₂.length ∧
    (∀ x ∈ ks₁, x < k) ∧ ∀ x ∈ ks₂, k < x := by
  obtain ⟨ks₁, ks₂, hks⟩ := List.append_of_mem hk
  have hlen := h.length
  have hs := h.sorted
  rw [hks] at hs
  rw [hks, List.length_append, List.length_cons] at hlen
  obtain ⟨-, hs', hlt⟩ := List.pairwise_append.mp hs
  refine ⟨ks₁, ks₂, (block n).vals.take ks₁.length, (block n).vals.get ⟨ks₁.length, by omega⟩,
    (block n).vals.drop (ks₁.length + 1), hks, ?_, ?_, ?_, fun x hx ↦ ?_, fun x hx ↦ ?_⟩
  · rw [List.get_eq_getElem, List.getElem_cons_drop, List.take_append_drop]
  · rw [List.length_take]
    omega
  · rw [List.length_drop]
    omega
  · exact hlt x hx k List.mem_cons_self
  · exact List.rel_of_pairwise_cons hs' hx

section Rewrite

variable {n' : Node} (hself : n'.self = o)

include hself

theorem content_write_of_ne {v : ℤ} (hv : v ≠ o) :
    content (st.write (block n')) v = content st v := by
  rw [content_write, if_neg (by rwa [block_self, hself])]

theorem marks_write : marks (st.write (block n')) (a ++ .node o :: b) =
    marks st a ++ (((block n').keys.map fun x ↦ 2 * x + 1) ++ marks st b) := by
  have hc : content (st.write (block n')) o = some (Block.content (block n')) := by
    rw [content_write, if_pos (by rw [block_self, hself])]
  have hside {w : Row} (hw : ∀ v ∈ nodes w, v ∈ nodes a ++ nodes b) :
      marks (st.write (block n')) w = marks st w :=
    marks_congr fun v hv ↦ h.content_write_of_ne hself (h.others_ne (hw v hv)).2
  rw [marks_append, marks_cons_node, keysAt_eq hc, hside fun v hv ↦ List.mem_append_left _ hv,
    hside fun v hv ↦ List.mem_append_right _ hv]
  rfl

theorem entries_write : entries (st.write (block n')) (a ++ .node o :: b) =
    entries st a ++ ((block n').keys.zip (block n').vals ++ entries st b) := by
  have hc : content (st.write (block n')) o = some (Block.content (block n')) := by
    rw [content_write, if_pos (by rw [block_self, hself])]
  have hside {w : Row} (hw : ∀ v ∈ nodes w, v ∈ nodes a ++ nodes b) :
      entries (st.write (block n')) w = entries st w :=
    entries_congr fun v hv ↦ h.content_write_of_ne hself (h.others_ne (hw v hv)).2
  rw [entries_append, entries_cons_node, pairsAt_eq hc,
    hside fun v hv ↦ List.mem_append_left _ hv, hside fun v hv ↦ List.mem_append_right _ hv]
  rfl

/-- The leaf with other entries, and no other block changed. -/
theorem good_write (hparent : n'.parent = n.parent)
    (hlinks : n'.prev = n.prev ∧ n'.next = n.next)
    (hok : LeafOk cf (a ++ .node o :: b) (Block.content (block n')))
    (hord : (marks st a ++ (((block n').keys.map fun x ↦ 2 * x + 1) ++ marks st b)).Pairwise
      (· < ·)) : Good cf (st.write (block n')) (a ++ .node o :: b) us d := by
  have hdisk {v : ℤ} (hv : v ≠ o) : (st.write (block n')).disk v = st.disk v :=
    Function.update_of_ne (by rwa [block_self, hself]) _ _
  have hlink (v : ℤ) : links (st.write (block n')) v = links st v := by
    by_cases hv : v = o
    · rw [links_write, if_pos (by rwa [block_self, hself]), hv, links, h.disk, block_prev,
        block_next, hlinks.1, hlinks.2]
      rfl
    · rw [links, hdisk hv, links]
  refine ⟨?_, ⟨fun v hv ↦ ?_, h.good.leaves.linked.congr fun v _ ↦ hlink v⟩, ?_,
    h.good.alloc.of_header header_write, h.good.level⟩
  · refine h.good.upper.congr rfl (fun v hv ↦ hdisk ?_) fun v hv ↦ ?_
    · rintro rfl
      exact h.row_notMem mem_nodes_middle hv
    · by_cases hvo : v = o
      · rw [par_write, if_pos (by rwa [block_self, hself]), block_parent, hparent, hvo, h.par_eq]
      · rw [par, hdisk hvo, par]
  · by_cases hvo : v = o
    · exact ⟨_, by rw [content_write, if_pos (by rwa [block_self, hself])], hok⟩
    · obtain ⟨c, hc, hok'⟩ := h.good.leaves.leaf v hv
      exact ⟨c, by rw [h.content_write_of_ne hself hvo, hc], hok'⟩
  · rw [Ordered, h.marks_write hself]
    exact hord

end Rewrite

end AtLeaf

end MqssdModel.BPlusTree.LeafLevel
