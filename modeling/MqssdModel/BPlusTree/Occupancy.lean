import MqssdModel.BPlusTree.Evaluation
import MqssdModel.BPlusTree.Reading

namespace MqssdModel.BPlusTree.Occupancy

open Data.Rows Data.TotalRun Machine Caching Removal Views Shape Allocation Pending LeafLevel Boot
  Put History Reading Evaluation

/-- The nodes other than the root are as full as the thresholds of the removal ask for. -/
def Occupied (cf : Config) (t : Tree) : Prop :=
  ∀ o n, Reachable t o → o ≠ t.root → t.file o = some n →
    (n.type = .leaf → (cf.maxEntries + 1) / 2 ≤ n.children) ∧
      (n.type = .nonLeaf → (cf.maxOrder + 1) / 2 ≤ n.children)

variable {cf : Config} {t : Tree} {st : Store} {w u : Row} {us : List Row} {o d : ℤ} {n : Node}
  {m : List (ℤ × ℤ)} {ops : List (ℤ × ℤ)} {fuel : ℕ}

theorem upper_of_mem (h : Upper cf st w us) (hu : u ∈ us) : ∃ us', Upper cf st u us' := by
  induction us generalizing w with
  | nil => exact absurd hu List.not_mem_nil
  | cons u' us ih =>
    rcases List.mem_cons.mp hu with rfl | hu
    · exact ⟨us, h.2.2.2⟩
    · exact ih h.2.2.2 hu

theorem not_alone (h : Upper cf st w us) (ho : o ∈ nodes w) (hne : o ≠ st.root) :
    1 < w.length := by
  cases us with
  | nil =>
    obtain ⟨rfl, -⟩ := h
    exact absurd (List.mem_singleton.mp ho) hne
  | cons u us =>
    obtain ⟨rfl, hin, -, -⟩ := h
    obtain ⟨q, hq, -⟩ := (mem_nodes_expand hin).mp ho
    have hpos := List.length_pos_of_mem hq
    have htwo := length_expand hin
    have hle : (nodes (expand (row st) u)).length ≤ (expand (row st) u).length :=
      List.length_filterMap_le _ _
    omega

theorem leaf_occupied (hrep : Rep t st []) (h : Good cf st w us d) (ho : o ∈ nodes w)
    (hne : o ≠ st.root) (hn : t.file o = some n) :
    n.type = .leaf ∧ (cf.maxEntries + 1) / 2 ≤ n.children := by
  obtain ⟨c, hc, hok⟩ := h.leaves.leaf o ho
  obtain ⟨n', hn', rfl⟩ := exists_node hrep hc
  obtain rfl := Option.some.inj (hn'.symm.trans hn)
  have hcount : n'.children = (block n').vals.length := hok.count
  exact ⟨hok.kind, hcount ▸ hok.half (not_alone h.upper ho hne)⟩

theorem inner_occupied (hrep : Rep t st []) (h : Good cf st w us d) (ho : o ∈ offsets us)
    (hne : o ≠ st.root) (hn : t.file o = some n) :
    n.type = .nonLeaf ∧ cf.maxOrder / 2 ≤ n.children := by
  obtain ⟨u, hu, ho⟩ := List.mem_flatMap.mp ho
  obtain ⟨c, hc, hok, -⟩ := inner_of_upper h.upper hu ho
  obtain ⟨us', hup⟩ := upper_of_mem h.upper hu
  obtain ⟨n', hn', rfl⟩ := exists_node hrep hc
  obtain rfl := Option.some.inj (hn'.symm.trans hn)
  have hcount : n'.children = (block n').vals.length := hok.count
  exact ⟨hok.kind, hcount ▸ hok.half (not_alone hup ho hne)⟩

/-- The split of a non-leaf leaves half of the order, rounded down. -/
theorem occupied_of_stands (hcf : Sized cf) (heven : 2 ∣ cf.maxOrder) (h : Stands cf t m d) :
    Occupied cf t := by
  obtain ⟨st, hrep, ⟨-, hroot, -⟩ | ⟨w, us, h, -⟩⟩ := h
  · rintro o n ⟨i, hi⟩ -
    rw [layer_empty (hrep.root.trans hroot)] at hi
    exact absurd hi List.not_mem_nil
  · intro o n hreach hne hn
    have hroot := h.alloc.ne_invalid hcf (root_mem h.upper)
    rw [hrep.root] at hne
    have ho := (layers_perm hrep hroot h.upper).mem_iff.mp
      ((reachable_iff hrep hroot h.upper h.leaves).mp hreach)
    rcases List.mem_append.mp ho with ho | ho
    · obtain ⟨htype, hhalf⟩ := leaf_occupied hrep h ho hne hn
      exact ⟨fun _ ↦ hhalf, fun h ↦ absurd (htype.symm.trans h) (by decide)⟩
    · obtain ⟨htype, hhalf⟩ := inner_occupied hrep h ho hne hn
      exact ⟨fun h ↦ absurd (htype.symm.trans h) (by decide), fun _ ↦ by omega⟩

/-- Leaves of four entries, the fourth of which gets full: the root has seven children and is
split where the new child goes. -/
def crowded : List (ℤ × ℤ) :=
  (List.range 28).map (fun i : ℕ ↦ (10 * (i : ℤ) + 10, 1)) ++
    [(131, 1), (132, 1), (133, 1), (134, 1)]

end MqssdModel.BPlusTree.Occupancy
