import MqssdModel.BPlusTree.InsertRun
import MqssdModel.BPlusTree.RemoveRun

namespace MqssdModel.BPlusTree.Put

open Data.Rows Data.TotalRun Machine Caching Insertion Removal Checking Views Shape Allocation Ordering
  Descent LeafLevel LeafInsert InsertRun LeafRemove RemoveRun

/-- The tree holds the entries `m`, in order. The `level` field is `d` more than the number of
levels above the leaves; the first entry makes it 1. -/
def Holds (cf : Config) (st : Store) (m : List (ℤ × ℤ)) (d : ℤ) : Prop :=
  m = [] ∧ st.root = invalidOffset ∧ st.level = 0 ∧ Alloc cf st [] ∧ d = 1 ∨
    ∃ w us, Good cf st w us d ∧ m = entries st w

/-- What `bplus_tree_put` comes to on a tree with the entries `m`. -/
def Outcome (cf : Config) (t₀ : Tree) (m : List (ℤ × ℤ)) (d k v x : ℤ) (t : Tree) : Prop :=
  x = -1 ∧ (v ≠ 0 ↔ k ∈ m.map Prod.fst) ∧ Still t₀ t ∨
    x = 0 ∧ (v ≠ 0 ↔ k ∉ m.map Prod.fst) ∧ ∃ st m' d', Rep t st [] ∧ Holds cf st m' d' ∧
      (d' = d ∨ d' = 1) ∧ Longer cf m'.length t₀.fileSize t.fileSize ∧
      (v ≠ 0 → Inserted k v m m') ∧ (v = 0 → Removed k m m')

variable {cf : Config} {t : Tree} {st : Store} {m m' : List (ℤ × ℤ)} {d k v : ℤ} {w u : Row}
  {us : List Row} {fuel : ℕ}

section Size

theorem length_expand (hin : ∀ o ∈ nodes u, InnerAt cf st w o) :
    2 * (nodes u).length ≤ (nodes (expand (row st) u)).length := by
  induction u with
  | nil => exact le_rfl
  | cons x u ih =>
    cases x with
    | node o =>
      obtain ⟨c, hc, hok, -⟩ := hin o List.mem_cons_self
      have hrow := hok.nodes_row hc
      have htwo := hok.two
      have := ih fun o ho ↦ hin o (List.mem_cons_of_mem _ ho)
      rw [expand_cons_node, nodes_append, List.length_append, hrow, nodes_cons_node,
        List.length_cons]
      omega
    | sep k => exact ih hin

/-- There are more leaves than levels above them. -/
theorem length_upper (h : Upper cf st w us) : us.length < (nodes w).length := by
  induction us generalizing w with
  | nil =>
    obtain ⟨rfl, -⟩ := h
    exact Nat.zero_lt_one
  | cons u us ih =>
    obtain ⟨rfl, hin, -, hup⟩ := h
    have := ih hup
    have := length_expand hin
    rw [List.length_cons]
    omega

theorem length_entries (h : ∀ o ∈ nodes w, ∃ c, content st o = some c ∧ LeafOk cf u c) :
    (nodes w).length ≤ (entries st w).length := by
  induction w with
  | nil => exact le_rfl
  | cons x w ih =>
    cases x with
    | node o =>
      obtain ⟨c, hc, hok⟩ := h o List.mem_cons_self
      have hone := hok.one
      have hkeys := hok.keys
      have := ih fun o ho ↦ h o (List.mem_cons_of_mem _ ho)
      rw [entries_cons_node, pairsAt_eq hc, List.length_append, List.length_zip, nodes_cons_node,
        List.length_cons]
      omega
    | sep k => exact ih h

theorem length_levels (h : Good cf st w us d) : us.length < (entries st w).length :=
  (length_upper h.upper).trans_le (length_entries h.leaves.leaf)

end Size

section Run

variable (hcf : Sized cf)

theorem par_root (h : Upper cf st w us) : par st st.root = some invalidOffset := by
  induction us generalizing w with
  | nil => exact h.2
  | cons u us ih => exact ih h.2.2.2

theorem root_isSome (h : Good cf st w us d) : (st.disk st.root).isSome := by
  obtain ⟨b, hb, -⟩ := Option.map_eq_some_iff.mp (par_root h.upper)
  exact Option.isSome_iff_exists.mpr ⟨b, hb⟩

include hcf

/-- What is done at the leaf that the search for `k` ends at is all that is done. -/
theorem atLeaf_run (h : Good cf st w us d) (hrep : Rep t st []) (hfuel : us.length < fuel)
    {f : Ptr → M ℤ} {e : M ℤ} {R : ℤ → Tree → Prop}
    (hf : ∀ {a b o t' c n}, w = a ++ .node o :: b → AtLeaf cf st a o b us d k n → Seen t t' st c n →
      Visits t k o → t.file o = some n → Runs (f c) t' R) :
    Runs (do
      let start ← nodeSeek t.root
      descend cf k f e fuel start) t R := by
  obtain ⟨g, rfl⟩ := Nat.exists_eq_add_of_lt hfuel
  rw [hrep.root]
  refine descend_run h.upper h.ordered.seps (fun o ho ↦ h.alloc.ne_invalid hcf ho)
    (root_isSome h) (fun {a b o t' c n} hw hfocus hseen hvisit hfile ↦ ?_) hrep
  subst hw
  have hd : st.disk o = some (block n) := by rw [← hrep.file, hfile, Option.map_some]
  have hleaf : AtLeaf cf st a o b us d k n := ⟨h, hfocus, hd, hrep.self o _ hd⟩
  unfold descend
  refine hseen.node_bind ?_
  rw [if_pos (by simp [Machine.isLeaf, hleaf.leaf.type])]
  exact hf rfl hleaf hseen hvisit hfile

omit hcf in
theorem atEnd_run (hroot : t.root = invalidOffset) {f : Ptr → M ℤ} {e : M ℤ}
    {R : ℤ → Tree → Prop} (he : Runs e t R) :
    Runs (do
      let start ← nodeSeek t.root
      descend cf k f e fuel start) t R := by
  rw [hroot]
  refine (show Runs (nodeSeek invalidOffset) t fun p t' ↦ p = none ∧ t' = t from ?_).seq ?_
  · unfold nodeSeek
    rw [if_pos rfl]
    exact runs_pure ⟨rfl, rfl⟩
  · rintro _ _ ⟨rfl, rfl⟩
    unfold descend
    exact he

theorem insert_run (h : Holds cf st m d) (hrep : Rep t st []) (hfuel : m.length < fuel)
    (hv : v ≠ 0) : Runs (bplusTreeInsert cf fuel k v) t (Outcome cf t m d k v) := by
  refine runs_get_bind ?_
  rcases h with ⟨rfl, hroot, -, halloc, rfl⟩ | ⟨w, us, h, rfl⟩
  · refine atEnd_run (hrep.root.trans hroot) ((newRoot_run hcf hrep).mono ?_)
    rintro _ t₁ ⟨rfl, h₁⟩
    obtain ⟨hgood, hent⟩ := good_planted (k := k) (v := v) hcf halloc
    have hsize : Longer cf 1 st.fileSize (planted cf st k v).fileSize := longer_alloc
    rw [← hrep.fileSize, ← h₁.fileSize] at hsize
    rw [← List.length_singleton (a := (k, v)), ← hent] at hsize
    refine Or.inr ⟨rfl, by simp [hv], _, _, 1, h₁, Or.inr ⟨_, _, hgood, rfl⟩, Or.inl rfl, hsize,
      fun _ ↦ ⟨[], [], rfl, hent⟩, fun h ↦ absurd h hv⟩
  · have hlen := length_levels h
    refine atLeaf_run hcf h hrep (by omega) fun {a b o t' c n} hw hleaf hseen _ _ ↦ ?_
    subst hw
    refine (leafInsert_run hleaf hcf (by omega) hseen).mono ?_
    rintro x t₁ (⟨rfl, hk, hstill⟩ | ⟨rfl, hk, st₁, w₁, us₁, h₁, hgood, hins, hsize⟩)
    · exact Or.inl ⟨rfl, by simp only [ne_eq, hv, not_false_eq_true, hk], hstill⟩
    · rw [← h₁.fileSize] at hsize
      exact Or.inr ⟨rfl, by simp only [ne_eq, hv, not_false_eq_true, hk], st₁, _, d, h₁,
        Or.inr ⟨_, _, hgood, rfl⟩, Or.inl rfl, hsize.mono (length_levels hgood), fun _ ↦ hins, fun h ↦ absurd h hv⟩

theorem delete_run (h : Holds cf st m d) (hrep : Rep t st []) (hfuel : m.length < fuel) :
    Runs (bplusTreeDeleteChecked cf fuel k) t (Outcome cf t m d k 0) := by
  refine runs_get_bind ?_
  rcases h with ⟨rfl, hroot, -, halloc, rfl⟩ | ⟨w, us, h, rfl⟩
  · refine atEnd_run (hrep.root.trans hroot) (runs_pure (Or.inl ⟨rfl, by simp, still_refl⟩))
  · have hlen := length_levels h
    refine atLeaf_run hcf h hrep (by omega) fun {a b o t' c n} hw hleaf hseen _ _ ↦ ?_
    subst hw
    have hmem {m' : List (ℤ × ℤ)} (hr : Removed k (entries st (a ++ .node o :: b)) m') :
        k ∈ (entries st (a ++ .node o :: b)).map Prod.fst := by
      obtain ⟨m₁, v, m₂, hm, -⟩ := hr
      rw [hm]
      simp
    refine (leafRemove_run hleaf hcf (by omega) hseen).mono ?_
    rintro x t₁ (⟨rfl, hk, hstill⟩ | ⟨rfl, ⟨st₁, w₁, us₁, h₁, hgood, hrem, hsize⟩ |
      ⟨⟨v, hm⟩, st₁, h₁, hroot, hlevel, halloc, hsize⟩⟩)
    · exact Or.inl ⟨rfl, by simp only [ne_eq, not_true_eq_false, hk], hstill⟩
    · rw [← h₁.fileSize] at hsize
      exact Or.inr ⟨rfl, by simp only [ne_eq, not_true_eq_false, hmem hrem], st₁, _, d, h₁,
        Or.inr ⟨_, _, hgood, rfl⟩, Or.inl rfl, hsize.mono (length_levels hgood).le,
        fun h ↦ absurd rfl h, fun _ ↦ hrem⟩
    · rw [← h₁.fileSize] at hsize
      have hrem : Removed k (entries st (a ++ .node o :: b)) [] := ⟨[], v, [], hm, rfl⟩
      exact Or.inr ⟨rfl, by simp only [ne_eq, not_true_eq_false, hmem hrem], st₁, [], 1, h₁,
        Or.inl ⟨rfl, hroot, hlevel, halloc, rfl⟩, Or.inr rfl, hsize, fun h ↦ absurd rfl h,
        fun _ ↦ hrem⟩

/-- The call ends, and so it does if it stops where a check fails. -/
theorem putChecked_run (h : Holds cf st m d) (hrep : Rep t st []) (hfuel : m.length < fuel) :
    Runs (bplusTreePutChecked cf fuel k v) t (Outcome cf t m d k v) := by
  unfold bplusTreePutChecked
  by_cases hv : v ≠ 0
  · rw [if_pos hv]
    exact insert_run hcf h hrep hfuel hv
  · rw [if_neg hv, not_not.mp hv]
    exact delete_run hcf h hrep hfuel

theorem put_run (h : Holds cf st m d) (hrep : Rep t st []) (hfuel : m.length < fuel) :
    Runs (bplusTreePut cf fuel k v) t (Outcome cf t m d k v) :=
  (putChecked_run hcf h hrep hfuel).of_refines (bplusTreePutChecked_refines cf fuel k v)

end Run

end MqssdModel.BPlusTree.Put
