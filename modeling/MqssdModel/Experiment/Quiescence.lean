import Mathlib.Data.Nat.Notation
import Mathlib.Logic.Basic
import Mathlib.Tactic.ByContra

namespace MqssdModel.Experiment.Quiescence

/-- What `GetIntProperty` gives for each property in one round of the loop; `none` where it
fails. -/
structure Poll where
  numRunningFlushes : Option UInt64
  numRunningCompactions : Option UInt64
  memTableFlushPending : Option UInt64
  compactionPending : Option UInt64

/-- How a round ends: with a `continue`, or with the `break`. -/
inductive Round
  | again (doubleChecked : Bool)
  | leave
  deriving DecidableEq

/-- A property is polled; the round goes on if the call succeeds and `prop` is not `busy`. -/
def check (prop : Option UInt64) (busy : UInt64 → Bool) (doubleChecked : Bool) (rest : Round) :
    Round :=
  match prop with
  | none => .again doubleChecked
  | some prop => if busy prop then .again doubleChecked else rest

def round (isLeveledCompaction : Bool) (p : Poll) (doubleChecked : Bool) : Round :=
  check p.numRunningFlushes (fun prop ↦ prop > 0) doubleChecked <|
  check p.numRunningCompactions (fun prop ↦ prop > 0) doubleChecked <|
  check p.memTableFlushPending (fun prop ↦ prop = 1) doubleChecked <|
  if isLeveledCompaction then
    check p.compactionPending (fun prop ↦ prop = 1) doubleChecked <|
    if doubleChecked then .leave else .again true
  else if doubleChecked then .leave else .again true

/-- `double_checked` before the poll `n`, as long as the loop has not been left. -/
def doubleChecked (isLeveledCompaction : Bool) (polls : ℕ → Poll) : ℕ → Option Bool
  | 0 => some false
  | n + 1 =>
    match doubleChecked isLeveledCompaction polls n with
    | none => none
    | some b =>
      match round isLeveledCompaction (polls n) b with
      | .again b => some b
      | .leave => none

/-- `waitForBGCompactions` leaves its loop at the poll `n`. -/
def LeavesAt (isLeveledCompaction : Bool) (polls : ℕ → Poll) (n : ℕ) : Prop :=
  ∃ b, doubleChecked isLeveledCompaction polls n = some b ∧
    round isLeveledCompaction (polls n) b = .leave

/-- The calls succeed and report no running flush, no running compaction, no pending flush of a
memtable and, for leveled compaction, no pending compaction. -/
structure Quiet (isLeveledCompaction : Bool) (p : Poll) : Prop where
  flushes : p.numRunningFlushes = some 0
  compactions : p.numRunningCompactions = some 0
  flushPending : ∃ v, p.memTableFlushPending = some v ∧ v ≠ 1
  compactionPending : isLeveledCompaction = true → ∃ v, p.compactionPending = some v ∧ v ≠ 1

variable {leveled : Bool} {polls : ℕ → Poll} {p : Poll} {b : Bool} {n : ℕ}

theorem check_of_quiet {prop : Option UInt64} {busy : UInt64 → Bool} {rest : Round}
    (h : ∃ v, prop = some v ∧ busy v = false) : check prop busy b rest = rest := by
  obtain ⟨v, rfl, hv⟩ := h
  simp [check, hv]

theorem check_cases (prop : Option UInt64) (busy : UInt64 → Bool) (b : Bool) (rest : Round) :
    check prop busy b rest = .again b ∨ ∃ v, prop = some v ∧ busy v = false := by
  cases prop with
  | none => exact Or.inl rfl
  | some v =>
    cases hv : busy v with
    | false => exact Or.inr ⟨v, rfl, hv⟩
    | true => exact Or.inl (by simp [check, hv])

theorem some_zero {prop : Option UInt64}
    (h : ∃ v, prop = some v ∧ decide (v > 0) = false) : prop = some 0 := by
  obtain ⟨v, rfl, hv⟩ := h
  have hle : v ≤ 0 := by simpa using hv
  exact congrArg some (UInt64.le_antisymm hle (UInt64.zero_le))

theorem round_quiet (h : Quiet leveled p) :
    round leveled p b = if b then .leave else .again true := by
  obtain ⟨v, hv, hne⟩ := h.flushPending
  unfold round
  rw [check_of_quiet ⟨0, h.flushes, by decide⟩, check_of_quiet ⟨0, h.compactions, by decide⟩,
    check_of_quiet ⟨v, hv, by simpa using hne⟩]
  cases leveled with
  | false => rfl
  | true =>
    obtain ⟨v, hv, hne⟩ := h.compactionPending rfl
    exact check_of_quiet ⟨v, hv, by simpa using hne⟩

/-- In a round that is not quiet one of the calls ends it; the flag stays as it is. -/
theorem round_busy (h : ¬Quiet leveled p) : round leveled p b = .again b := by
  unfold round
  rcases check_cases p.numRunningFlushes (fun prop ↦ prop > 0) b _ with h₁ | h₁
  · exact h₁
  rw [check_of_quiet h₁]
  rcases check_cases p.numRunningCompactions (fun prop ↦ prop > 0) b _ with h₂ | h₂
  · exact h₂
  rw [check_of_quiet h₂]
  rcases check_cases p.memTableFlushPending (fun prop ↦ prop = 1) b _ with h₃ | h₃
  · exact h₃
  rw [check_of_quiet h₃]
  have hpending : ∃ v, p.memTableFlushPending = some v ∧ v ≠ 1 := by simpa using h₃
  cases leveled with
  | false => exact absurd ⟨some_zero h₁, some_zero h₂, hpending, fun h ↦ by cases h⟩ h
  | true =>
    rw [if_pos rfl]
    rcases check_cases p.compactionPending (fun prop ↦ prop = 1) b _ with h₄ | h₄
    · exact h₄
    · exact absurd ⟨some_zero h₁, some_zero h₂, hpending, fun _ ↦ by simpa using h₄⟩ h

/-- Before a poll of the loop at most one was quiet, and the flag says whether one was. -/
theorem doubleChecked_spec (h : doubleChecked leveled polls n = some b) :
    (b = false ∧ ∀ i < n, ¬Quiet leveled (polls i)) ∨
      b = true ∧ ∃ i < n, Quiet leveled (polls i) ∧ ∀ j < n, Quiet leveled (polls j) → j = i := by
  induction n generalizing b with
  | zero =>
    cases h
    exact Or.inl ⟨rfl, fun i hi ↦ absurd hi (Nat.not_lt_zero i)⟩
  | succ n ih =>
    unfold doubleChecked at h
    cases hc : doubleChecked leveled polls n with
    | none =>
      rw [hc] at h
      cases h
    | some c =>
      rw [hc] at h
      by_cases hq : Quiet leveled (polls n)
      · simp only [round_quiet hq] at h
        rcases ih hc with ⟨rfl, hbusy⟩ | ⟨rfl, -⟩
        · obtain rfl : true = b := by simpa using h
          refine Or.inr ⟨rfl, n, Nat.lt_succ_self n, hq, fun j hj hqj ↦ ?_⟩
          by_contra hne
          exact hbusy j (by omega) hqj
        · simp at h
      · simp only [round_busy hq] at h
        obtain rfl : c = b := by simpa using h
        rcases ih hc with ⟨rfl, hbusy⟩ | ⟨rfl, i, hi, hqi, hone⟩
        · refine Or.inl ⟨rfl, fun i hi hqi ↦ ?_⟩
          rcases Nat.lt_succ_iff_lt_or_eq.mp hi with hi | rfl
          · exact hbusy i hi hqi
          · exact hq hqi
        · refine Or.inr ⟨rfl, i, by omega, hqi, fun j hj hqj ↦ ?_⟩
          rcases Nat.lt_succ_iff_lt_or_eq.mp hj with hj | rfl
          · exact hone j hj hqj
          · exact absurd hqj hq

/-- The loop is left at the second quiet poll, wherever the first one was. -/
theorem quiet_of_leavesAt (h : LeavesAt leveled polls n) : Quiet leveled (polls n) ∧
    ∃ i < n, Quiet leveled (polls i) ∧ ∀ j < n, Quiet leveled (polls j) → j = i := by
  obtain ⟨b, hb, hleave⟩ := h
  by_cases hq : Quiet leveled (polls n)
  · rw [round_quiet hq] at hleave
    rcases doubleChecked_spec hb with ⟨rfl, -⟩ | ⟨rfl, hone⟩
    · simp at hleave
    · exact ⟨hq, hone⟩
  · rw [round_busy hq] at hleave
    cases hleave

def quietPoll : Poll := ⟨some 0, some 0, some 0, some 0⟩

theorem quiet_quietPoll : Quiet leveled quietPoll :=
  ⟨rfl, rfl, ⟨0, rfl, by decide⟩, fun _ ↦ ⟨0, rfl, by decide⟩⟩

end MqssdModel.Experiment.Quiescence
