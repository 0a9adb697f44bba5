import MqssdModel.BPlusTree.RangeRun

namespace MqssdModel.BPlusTree.Safety

open Data.Assoc Data.TotalRun Machine Caching Removal Checking Allocation Descent Boot Lookup
  GetRun Scan RangeRun Put History

/-- The call ends, and no cache is in use then. It has not run out of caches, has not used a pointer
to a cache that has changed hands and has not held a block in two caches, since it would have failed
there. -/
def Released {α : Type} (f : M α) (t : Tree) : Prop :=
  Runs f t fun _ t' ↦ ∀ i, t'.used i = false

variable {cf : Config} {t t' : Tree} {st : Store} {m ops : List (ℤ × ℤ)} {d k v : ℤ} {fuel : ℕ}

theorem unused_of_rep (h : Rep t st []) (i : Slot) : t.used i = false := by
  have hu := h.used i
  rw [List.map_nil] at hu
  exact Bool.eq_false_iff.mpr fun hi ↦ absurd (hu.mp hi) List.not_mem_nil

theorem unused_of_stands (h : Stands cf t m d) (i : Slot) : t.used i = false := by
  obtain ⟨st, hrep, -⟩ := h
  exact unused_of_rep hrep i

/-- A call that changes nothing but caches leaves them free. -/
theorem released_of_still {f : M ℤ} {Q : ℤ → Tree → Prop} (h : Stands cf t m d)
    (hf : Runs f t Q) (hq : ∀ x t', Q x t' → Still t t') : Released f t := by
  refine hf.mono fun x t' hx i ↦ ?_
  rw [(hq x t' hx).used]
  exact unused_of_stands h i

section Slots

/-- The calls, with the check at every node that is rebalanced. -/
def putsChecked (cf : Config) (fuel : ℕ) : List (ℤ × ℤ) → M (List ℤ)
  | [] => return []
  | (k, v) :: ops => do
    let x ← bplusTreePutChecked cf fuel k v
    let xs ← putsChecked cf fuel ops
    return x :: xs

theorem putsChecked_refines (ops : List (ℤ × ℤ)) :
    Refines (putsChecked cf fuel ops) (puts cf fuel ops) := by
  induction ops with
  | nil => exact refines_refl _
  | cons op ops ih =>
    refine (bplusTreePutChecked_refines cf fuel op.1 op.2).bind fun x ↦ ?_
    exact ih.bind fun xs ↦ refines_refl _

theorem putsChecked_run (hcf : Sized cf) (h : Stands cf t m d)
    (hfuel : m.length + ops.length ≤ fuel) :
    Runs (putsChecked cf fuel ops) t fun _ _ ↦ True := by
  induction ops generalizing t m d with
  | nil => exact runs_pure trivial
  | cons op ops ih =>
    obtain ⟨k, v⟩ := op
    rw [List.length_cons] at hfuel
    have hlt : m.length < fuel := by omega
    obtain ⟨st, hrep, hholds⟩ := id h
    obtain ⟨x, t₁, hrun, -⟩ := putChecked_run (k := k) (v := v) hcf hholds hrep hlt
    -- The plain call ends in the same tree, so the invariant holds there.
    have hplain : bplusTreePut cf fuel k v t = .ok (x, t₁) :=
      bplusTreePutChecked_refines cf fuel k v t _ hrun
    obtain ⟨m₁, d₁, hf, -⟩ := Runs.unique (put_follows hcf h hlt) hplain
    have hlen := hf.length
    have hrest := ih hf.stands (by omega)
    refine Runs.seq (P := fun _ t' ↦ t' = t₁) ⟨x, t₁, hrun, rfl⟩ ?_
    rintro _ _ rfl
    exact hrest.seq fun _ _ _ ↦ runs_pure trivial

end Slots

end MqssdModel.BPlusTree.Safety
