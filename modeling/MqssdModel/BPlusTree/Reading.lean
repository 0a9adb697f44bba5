import MqssdModel.BPlusTree.History

namespace MqssdModel.BPlusTree.Reading

open Data.Arrays Data.Assoc Data.Chain Data.Rows Machine Caching Views Shape Allocation Ordering
  Pending Steps LeafLevel Put History

/-- The children of the block at `o`. -/
def kids (t : Tree) (o : ℤ) : List ℤ :=
  match t.file o with
  | some n => if isLeaf n then [] else front n.sub n.children.toNat
  | none => []

/-- The entries of the block at `o`. -/
def pairs (t : Tree) (o : ℤ) : List (ℤ × ℤ) :=
  match t.file o with
  | some n => if isLeaf n then (front n.key n.children.toNat).zip (front n.data n.children.toNat)
      else []
  | none => []

/-- The nodes `i` steps below the root, from left to right. -/
def layer (t : Tree) : ℕ → List ℤ
  | 0 => if t.root = invalidOffset then [] else [t.root]
  | i + 1 => (layer t i).flatMap (kids t)

def Reachable (t : Tree) (o : ℤ) : Prop := ∃ i, o ∈ layer t i

/-- The first `h` layers, from the root on. -/
def layers (t : Tree) (h : ℕ) : List ℤ := (List.range h).flatMap (layer t)

/-- The map in the leaves of the tree. -/
def Stored (t : Tree) (m : Table) : Prop :=
  ∀ k v, m k = some v ↔ ∃ o, Reachable t o ∧ (k, v) ∈ pairs t o

variable {cf : Config} {t : Tree} {st : Store} {w u : Row} {us : List Row} {o d : ℤ} {c : Content}
  {m : List (ℤ × ℤ)}

section Nodes

variable (hrep : Rep t st [])

include hrep

theorem exists_node (hc : content st o = some c) :
    ∃ n, t.file o = some n ∧ Block.content (block n) = c := by
  obtain ⟨b, hb, rfl⟩ := Option.map_eq_some_iff.mp hc
  have hf := hrep.file o
  rw [hb] at hf
  obtain ⟨n, hn, rfl⟩ := Option.map_eq_some_iff.mp hf
  exact ⟨n, hn, rfl⟩

theorem kids_inner (hc : content st o = some c) (hok : InnerOk cf w c) : kids t o = c.vals := by
  obtain ⟨n, hn, rfl⟩ := exists_node hrep hc
  have hk : n.type = .nonLeaf := hok.kind
  simp [kids, hn, isLeaf, hk, block, Block.content]

theorem kids_leaf (hc : content st o = some c) (hok : LeafOk cf w c) : kids t o = [] := by
  obtain ⟨n, hn, rfl⟩ := exists_node hrep hc
  have hk : n.type = .leaf := hok.kind
  simp [kids, hn, isLeaf, hk]

theorem pairs_inner (hc : content st o = some c) (hok : InnerOk cf w c) : pairs t o = [] := by
  obtain ⟨n, hn, rfl⟩ := exists_node hrep hc
  have hk : n.type = .nonLeaf := hok.kind
  simp [pairs, hn, isLeaf, hk]

theorem pairs_leaf (hc : content st o = some c) (hok : LeafOk cf w c) :
    pairs t o = pairsAt st o := by
  rw [pairsAt_eq hc]
  obtain ⟨n, hn, rfl⟩ := exists_node hrep hc
  have hk : n.type = .leaf := hok.kind
  simp [pairs, hn, isLeaf, hk, block, Block.content, keyCount]

end Nodes

section Layers

theorem layer_empty (hroot : t.root = invalidOffset) (i : ℕ) : layer t i = [] := by
  induction i with
  | zero => exact if_pos hroot
  | succ i ih => rw [layer, ih, List.flatMap_nil]

variable (hrep : Rep t st []) (hroot : st.root ≠ invalidOffset)

include hrep hroot

theorem layer_upper (h : Upper cf st w us) : layer t us.length = nodes w := by
  induction us generalizing w with
  | nil =>
    obtain ⟨rfl, -⟩ := h
    exact (if_neg (hrep.root ▸ hroot)).trans (by rw [hrep.root]; rfl)
  | cons u us ih =>
    obtain ⟨rfl, hin, -, hup⟩ := h
    rw [List.length_cons, layer, ih hup, nodes_expand]
    refine List.flatMap_congr fun o ho ↦ ?_
    obtain ⟨c, hc, hok, -⟩ := hin o ho
    rw [kids_inner hrep hc hok, hok.nodes_row hc]

/-- Every layer down to the leaves is one of the rows. -/
theorem exists_row (h : Upper cf st w us) {i : ℕ} (hi : i ≤ us.length) :
    ∃ u ∈ w :: us, layer t i = nodes u ∧ (i < us.length → u ∈ us) := by
  induction us generalizing w with
  | nil =>
    obtain rfl : i = 0 := Nat.le_zero.mp hi
    exact ⟨w, List.mem_cons_self, layer_upper hrep hroot h, fun h ↦ absurd h (Nat.lt_irrefl 0)⟩
  | cons u us ih =>
    by_cases hlt : i ≤ us.length
    · obtain ⟨u', hu', he, -⟩ := ih h.2.2.2 hlt
      exact ⟨u', List.mem_cons_of_mem _ hu', he, fun _ ↦ hu'⟩
    · obtain rfl : i = (u :: us).length := by
        rw [List.length_cons] at hi ⊢
        omega
      exact ⟨w, List.mem_cons_self, layer_upper hrep hroot h,
        fun h ↦ absurd h (Nat.lt_irrefl _)⟩

theorem layers_perm (h : Upper cf st w us) :
    (layers t (us.length + 1)).Perm (nodes w ++ offsets us) := by
  induction us generalizing w with
  | nil =>
    have h₀ := layer_upper hrep hroot h
    simp only [List.length_nil] at h₀
    simp [layers, h₀, offsets]
  | cons u us ih =>
    have hlast := layer_upper hrep hroot h
    have hperm := ih h.2.2.2
    rw [layers, List.range_succ, List.flatMap_append, List.flatMap_singleton, hlast]
    refine (List.perm_append_comm).trans (List.Perm.append_left _ ?_)
    exact hperm

theorem layer_below (h : Upper cf st w us) (hl : Leaves cf st w) {i : ℕ}
    (hi : us.length < i) : layer t i = [] := by
  induction i with
  | zero => exact absurd hi (Nat.not_lt_zero _)
  | succ i ih =>
    rw [layer]
    by_cases hlt : us.length < i
    · rw [ih hlt, List.flatMap_nil]
    · obtain rfl : i = us.length := by omega
      rw [layer_upper hrep hroot h]
      refine List.flatMap_eq_nil_iff.mpr fun o ho ↦ ?_
      obtain ⟨c, hc, hok⟩ := hl.leaf o ho
      exact kids_leaf hrep hc hok

theorem reachable_iff (h : Upper cf st w us) (hl : Leaves cf st w) :
    Reachable t o ↔ o ∈ layers t (us.length + 1) := by
  rw [layers, List.mem_flatMap]
  constructor
  · rintro ⟨i, hi⟩
    by_cases hlt : i < us.length + 1
    · exact ⟨i, List.mem_range.mpr hlt, hi⟩
    · rw [layer_below hrep hroot h hl (by omega)] at hi
      exact absurd hi List.not_mem_nil
  · rintro ⟨i, -, hi⟩
    exact ⟨i, hi⟩

end Layers

theorem root_mem (h : Upper cf st w us) : st.root ∈ nodes w ++ offsets us := by
  induction us generalizing w with
  | nil =>
    obtain ⟨rfl, -⟩ := h
    exact List.mem_append_left _ List.mem_cons_self
  | cons u us ih => exact List.mem_append_right _ (ih h.2.2.2)

theorem inner_of_upper (h : Upper cf st w us) (hu : u ∈ us) (ho : o ∈ nodes u) :
    InnerAt cf st u o := by
  induction us generalizing w with
  | nil => exact absurd hu List.not_mem_nil
  | cons u' us ih =>
    rcases List.mem_cons.mp hu with rfl | hu
    · exact h.2.1 o ho
    · exact ih h.2.2.2 hu

theorem linked_of_upper (h : Upper cf st w us) (hu : u ∈ us) :
    Linked (links st) invalidOffset (nodes u) invalidOffset := by
  induction us generalizing w with
  | nil => exact absurd hu List.not_mem_nil
  | cons u' us ih =>
    rcases List.mem_cons.mp hu with rfl | hu
    · exact h.2.2.1
    · exact ih h.2.2.2 hu

theorem stored_of_stands (hcf : Sized cf) (h : Stands cf t m d) : Stored t (table m) := by
  obtain ⟨st, hrep, hholds⟩ := h
  intro k v
  rw [table_eq_some (Holds.nodup hholds)]
  rcases hholds with ⟨rfl, hroot, -⟩ | ⟨w, us, h, rfl⟩
  · constructor
    · exact fun h ↦ absurd h List.not_mem_nil
    · rintro ⟨o, ⟨i, hi⟩, -⟩
      rw [layer_empty (hrep.root.trans hroot)] at hi
      exact absurd hi List.not_mem_nil
  · have hroot := h.alloc.ne_invalid hcf (root_mem h.upper)
    have hmem : ∀ {o}, Reachable t o ↔ o ∈ nodes w ++ offsets us := fun {o} ↦
      (reachable_iff hrep hroot h.upper h.leaves).trans
        (layers_perm hrep hroot h.upper).mem_iff
    rw [entries, List.mem_flatMap]
    constructor
    · rintro ⟨o, ho, hp⟩
      obtain ⟨c, hc, hok⟩ := h.leaves.leaf o ho
      exact ⟨o, hmem.mpr (List.mem_append_left _ ho), by rwa [pairs_leaf hrep hc hok]⟩
    · rintro ⟨o, ho, hp⟩
      rcases List.mem_append.mp (hmem.mp ho) with ho | ho
      · obtain ⟨c, hc, hok⟩ := h.leaves.leaf o ho
        exact ⟨o, ho, by rwa [← pairs_leaf hrep hc hok]⟩
      · obtain ⟨u, hu, ho⟩ := List.mem_flatMap.mp ho
        obtain ⟨c, hc, hok, -⟩ := inner_of_upper h.upper hu ho
        rw [pairs_inner hrep hc hok] at hp
        exact absurd hp List.not_mem_nil

end MqssdModel.BPlusTree.Reading
