import MqssdModel.BPlusTree.Reading

namespace MqssdModel.BPlusTree.Consistency

open Data.Arrays Data.Assoc Data.Chain Data.Rows Data.TotalRun Machine Caching Removal Views Shape
  Allocation Descent LeafLevel Boot Put History Reading

/-- The `prev` and `next` fields of the block at `o`. -/
def siblings (t : Tree) (o : ℤ) : Option (ℤ × ℤ) := (t.file o).map fun n ↦ (n.prev, n.next)

/-- The links of a layer: every node knows where it is, whose child it is and what stands beside
it. -/
structure LayerLinks (t : Tree) (i : ℕ) : Prop where
  chain : Linked (siblings t) invalidOffset (layer t i) invalidOffset
  self : ∀ o ∈ layer t i, ∃ n, t.file o = some n ∧ n.self = o
  top : i = 0 → ∀ o ∈ layer t i, ∃ n, t.file o = some n ∧ n.parent = invalidOffset
  parent : ∀ o ∈ layer t i, ∀ v ∈ kids t o, ∃ n, t.file v = some n ∧ n.parent = o

/-- The blocks of the file up to its end are the nodes of the tree and the free ones. -/
structure Accounted (cf : Config) (t : Tree) : Prop where
  reachable : ∀ o, Reachable t o ↔ o ∈ layers t t.level.toNat
  nodup : (layers t t.level.toNat ++ t.freeBlocks).Nodup
  exact : ∀ o, o ∈ layers t t.level.toNat ++ t.freeBlocks ↔
    0 ≤ o ∧ o < t.fileSize ∧ cf.blockSize ∣ o
  whole : cf.blockSize ∣ t.fileSize
  valid : invalidOffset ∉ layers t t.level.toNat ++ t.freeBlocks

variable {cf : Config} {t : Tree} {st : Store} {w : Row} {us : List Row} {o d : ℤ}
  {m : List (ℤ × ℤ)} {ops : List (ℤ × ℤ)} {fuel : ℕ}

section Links

variable (hrep : Rep t st [])

include hrep

theorem siblings_eq : siblings t o = links st o := by
  rw [links, ← hrep.file, Option.map_map]
  rfl

theorem exists_of_par {q : ℤ} (h : par st o = some q) : ∃ n, t.file o = some n ∧ n.parent = q := by
  rw [par, ← hrep.file, Option.map_map] at h
  exact Option.map_eq_some_iff.mp h

theorem exists_self {c : Content} (hc : content st o = some c) :
    ∃ n, t.file o = some n ∧ n.self = o := by
  obtain ⟨b, hb, -⟩ := Option.map_eq_some_iff.mp hc
  have hself := hrep.self o b hb
  have hf := hrep.file o
  rw [hb] at hf
  obtain ⟨n, hn, rfl⟩ := Option.map_eq_some_iff.mp hf
  exact ⟨n, hn, hself⟩

theorem layerLinks_of_good (hcf : Sized cf) (h : Good cf st w us d) (i : ℕ) :
    LayerLinks t i := by
  have hroot := h.alloc.ne_invalid hcf (root_mem h.upper)
  have htop : i = 0 → ∀ o ∈ layer t i, ∃ n, t.file o = some n ∧ n.parent = invalidOffset := by
    rintro rfl o ho
    rw [layer, if_neg (hrep.root ▸ hroot), List.mem_singleton, hrep.root] at ho
    subst ho
    exact exists_of_par hrep (par_root h.upper)
  by_cases hi : i ≤ us.length
  · obtain ⟨u, hu, he, -⟩ := exists_row hrep hroot h.upper hi
    rcases List.mem_cons.mp hu with rfl | hu
    · refine ⟨?_, fun o ho ↦ ?_, htop, fun o ho v hv ↦ ?_⟩
      · rw [he]
        exact h.leaves.linked.congr fun o _ ↦ siblings_eq hrep
      · obtain ⟨c, hc, -⟩ := h.leaves.leaf o (he ▸ ho)
        exact exists_self hrep hc
      · obtain ⟨c, hc, hok⟩ := h.leaves.leaf o (he ▸ ho)
        rw [kids_leaf hrep hc hok] at hv
        exact absurd hv List.not_mem_nil
    · refine ⟨?_, fun o ho ↦ ?_, htop, fun o ho v hv ↦ ?_⟩
      · rw [he]
        exact (linked_of_upper h.upper hu).congr fun o _ ↦ siblings_eq hrep
      · obtain ⟨c, hc, -⟩ := inner_of_upper h.upper hu (he ▸ ho)
        exact exists_self hrep hc
      · obtain ⟨c, hc, hok, hpar⟩ := inner_of_upper h.upper hu (he ▸ ho)
        rw [kids_inner hrep hc hok] at hv
        exact exists_of_par hrep (hpar v hv)
  · have he := layer_below hrep hroot h.upper h.leaves (Nat.lt_of_not_le hi)
    refine ⟨?_, ?_, htop, ?_⟩
    · rw [he]
      trivial
    · rw [he]
      exact fun o ho ↦ absurd ho List.not_mem_nil
    · rw [he]
      exact fun o ho ↦ absurd ho List.not_mem_nil

end Links

theorem layerLinks_of_stands (hcf : Sized cf) (h : Stands cf t m d) (i : ℕ) : LayerLinks t i := by
  obtain ⟨st, hrep, ⟨-, hroot, -⟩ | ⟨w, us, h, -⟩⟩ := h
  · have he := layer_empty (hrep.root.trans hroot) i
    constructor <;> rw [he]
    · trivial
    · exact fun o ho ↦ absurd ho List.not_mem_nil
    · exact fun _ o ho ↦ absurd ho List.not_mem_nil
    · exact fun o ho ↦ absurd ho List.not_mem_nil
  · exact layerLinks_of_good hrep hcf h i

theorem invalid_not_dvd (hcf : Sized cf) : ¬cf.blockSize ∣ invalidOffset := by
  intro h
  have heven : 2 ∣ invalidOffset := hcf.even.trans h
  revert heven
  decide

theorem accounted_of_alloc (hcf : Sized cf) (hrep : Rep t st []) {used : List ℤ}
    (h : Alloc cf st used) (hperm : (layers t t.level.toNat).Perm used)
    (hreach : ∀ o, Reachable t o ↔ o ∈ layers t t.level.toNat) : Accounted cf t := by
  have ha := h.perm hperm.symm
  refine ⟨hreach, hrep.free ▸ ha.nodup, fun o ↦ ?_, hrep.fileSize ▸ ha.dvd, fun hm ↦ ?_⟩
  · rw [hrep.free, hrep.fileSize]
    exact ha.mem o
  · rw [hrep.free] at hm
    exact invalid_not_dvd hcf ((ha.mem _).mp hm).2.2

theorem accounted_of_stands (hcf : Sized cf) (h : Stands cf t m 1) : Accounted cf t := by
  obtain ⟨st, hrep, ⟨-, hroot, hlevel, halloc, -⟩ | ⟨w, us, h, -⟩⟩ := h
  · have hzero : t.level.toNat = 0 := by
      rw [hrep.level, hlevel]
      rfl
    have he := layer_empty (hrep.root.trans hroot)
    refine accounted_of_alloc hcf hrep halloc ?_ fun o ↦ ?_
    · rw [hzero]
      exact .nil
    · rw [hzero]
      constructor
      · rintro ⟨i, hi⟩
        rwa [he i] at hi
      · exact fun ho ↦ absurd ho List.not_mem_nil
  · have hroot := h.alloc.ne_invalid hcf (root_mem h.upper)
    have hlevel : t.level.toNat = us.length + 1 := by
      have hl := h.level
      rw [hrep.level]
      omega
    refine accounted_of_alloc hcf hrep h.alloc ?_ fun o ↦ ?_
    · rw [hlevel]
      exact layers_perm hrep hroot h.upper
    · rw [hlevel]
      exact reachable_iff hrep hroot h.upper h.leaves

end MqssdModel.BPlusTree.Consistency
