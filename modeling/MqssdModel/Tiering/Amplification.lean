import Mathlib.Data.Nat.Log
import MqssdModel.Tiering.Jobs

namespace MqssdModel.Tiering.Amplification

open Picker Schedule Digits Counting Jobs

variable {F lo hi w n j : ℕ} {check : OverlapCheck} {o : Options} {fs ds rest : List ℕ}
  {runs : List Run} {c : Compaction}

/-- The bytes a compaction writes. -/
def outputSize (c : Compaction) (runs : List Run) : ℕ :=
  (mergeRuns ((runs.drop c.startIndex).take c.count)).size

/-- `KeepUp` with the bytes that the compactions have written so far. -/
inductive Written (o : Options) (check : OverlapCheck) : List ℕ → List Run → ℕ → Prop
  | nil : Written o check [] [] 0
  | flush {fs : List ℕ} {runs : List Run} {w : ℕ} (x : ℕ) : Written o check fs runs w →
      pick o check runs = none → Written o check (x :: fs) (flushRun x :: runs) w
  | compact {fs : List ℕ} {runs : List Run} {w : ℕ} {c : Compaction} : Written o check fs runs w →
      pick o check runs = some c →
      Written o check fs (applyCompaction c runs) (w + outputSize c runs)

theorem Written.keepUp (h : Written o check fs runs w) : KeepUp o check fs runs := by
  induction h with
  | nil => exact .nil
  | flush x _ hp ih => exact ih.flush x hp
  | compact _ hp ih => exact ih.compact hp

theorem written_of_keepUp (h : KeepUp o check fs runs) : ∃ w, Written o check fs runs w := by
  induction h with
  | nil => exact ⟨0, .nil⟩
  | flush x _ hp ih =>
    obtain ⟨w, ih⟩ := ih
    exact ⟨w, ih.flush x hp⟩
  | compact _ hp ih =>
    obtain ⟨w, ih⟩ := ih
    exact ⟨_, ih.compact hp⟩

theorem contents_applyCompaction (c : Compaction) (runs : List Run) :
    contents (applyCompaction c runs) = contents runs := by
  have hcut : runs = runs.take c.startIndex ++ ((runs.drop c.startIndex).take c.count ++
      runs.drop (c.startIndex + c.count)) := by
    rw [← List.drop_drop, List.take_append_drop, List.take_append_drop]
  conv_rhs => rw [hcut]
  simp only [applyCompaction, contents, mergeRuns, List.flatMap_append, List.flatMap_cons]

theorem contents_of_keepUp (h : KeepUp o check fs runs) : contents runs = fs := by
  induction h with
  | nil => rfl
  | flush x _ hp ih =>
    rw [← ih]
    rfl
  | compact _ hp ih => rw [contents_applyCompaction, ih]

/-- Each byte of a run of `F ^ i` flushes has been written `i` times. -/
def rewritten (F : ℕ) (runs : List Run) : ℕ :=
  (runs.map fun r ↦ Nat.log F (flushCount r) * r.size).sum

theorem rewritten_tier (hF : 2 ≤ F) {tier : List Run}
    (h : tier.map flushCount = List.replicate n (F ^ j)) :
    rewritten F tier = j * (mergeRuns tier).size := by
  rw [mergeRuns_size]
  induction tier generalizing n with
  | nil => rfl
  | cons r tier ih =>
    cases n with
    | zero => cases h
    | succ n =>
      rw [List.map_cons, List.replicate_succ] at h
      obtain ⟨hr, htier⟩ := List.cons.inj h
      have hrest := ih htier
      rw [rewritten] at hrest ⊢
      rw [List.map_cons, List.sum_cons, hrest, hr, Nat.log_pow (by omega), List.map_cons,
        List.sum_cons, Nat.mul_add]

theorem rewritten_merge (hF : 2 ≤ F) {tier older : List Run}
    (h : tier.map flushCount = List.replicate F (F ^ j)) :
    rewritten F (mergeRuns tier :: older) =
      rewritten F (tier ++ older) + (mergeRuns tier).size := by
  have hcount : flushCount (mergeRuns tier) = F ^ (j + 1) := by
    rw [flushCount_merge, h, List.sum_replicate, pow_succ, Nat.mul_comm]
    rfl
  have htier := rewritten_tier hF h
  simp only [rewritten, List.map_cons, List.sum_cons, List.map_append, List.sum_append,
    hcount, Nat.log_pow (show 1 < F by omega)] at htier ⊢
  rw [htier]
  ring

theorem written_eq (hs : Spread F lo hi) (hfs : ∀ x ∈ fs, lo ≤ x ∧ x ≤ hi)
    (h : Written (mqssdOptions F) check fs runs w) : w = rewritten F runs := by
  have hF := hs.fanout
  induction h with
  | nil => rfl
  | @flush fs runs w x h hp ih =>
    rw [ih fun y hy ↦ hfs y (List.mem_cons_of_mem x hy)]
    have hone : flushCount (flushRun x) = 1 := rfl
    simp [rewritten, hone]
  | @compact fs runs w c h hp ih =>
    obtain ⟨ds, ht⟩ := h.keepUp.tiers hs hfs
    rcases carry_cases ht.carry with hd | ⟨j, rest, rfl, hr⟩
    · rw [ht.pick_none check hs hd] at hp
      cases hp
    · obtain ⟨hp', htake, -⟩ := ht.pick_carry check hs hr
      obtain rfl := Option.some.inj (hp'.symm.trans hp)
      have hmerge : rewritten F (mergeRuns (runs.take F) :: runs.drop F) =
          rewritten F (runs.take F ++ runs.drop F) + (mergeRuns (runs.take F)).size :=
        rewritten_merge hF htake
      rw [List.take_append_drop] at hmerge
      rw [ih hfs]
      simpa [applyCompaction, outputSize] using hmerge.symm

theorem sum_size (runs : List Run) : (runs.map Run.size).sum = (contents runs).sum := by
  rw [← mergeRuns_size]
  rfl

theorem rewritten_le (runs : List Run) :
    rewritten F runs ≤ Nat.log F (contents runs).length * (contents runs).sum := by
  rw [← sum_size, rewritten, ← List.sum_map_mul_left]
  refine List.sum_le_sum fun r hr ↦ Nat.mul_le_mul_right _ (Nat.log_mono_right ?_)
  rw [contents, List.length_flatMap]
  exact List.single_le_sum (fun _ _ ↦ Nat.zero_le _) _ (List.mem_map_of_mem hr)

/-- After a power of the fanout there is one run. -/
theorem counts_power (hs : Spread F lo hi) (ht : Tiers F lo hi (F ^ n) runs ds)
    (hd : ∀ x ∈ ds, x < F) : runs.map flushCount = [F ^ n] := by
  have hF := hs.fanout
  have hvalue : Nat.ofDigits F (List.replicate n 0 ++ [1]) = F ^ n := by
    simp [Nat.ofDigits_append, Nat.ofDigits_replicate_zero]
  have hlt : ∀ x ∈ List.replicate n 0 ++ [1], x < F := by
    intro x hx
    rcases List.mem_append.mp hx with hx | hx
    · rw [List.eq_of_mem_replicate hx]
      omega
    · rw [List.mem_singleton.mp hx]
      omega
  have hone := tierCounts_digits hF 0 hlt
  rw [tierCounts_zeros, hvalue, ← ht.value, tierCounts_digits hF 0 hd, ← ht.counts] at hone
  simpa [tierCounts] using hone

end MqssdModel.Tiering.Amplification
