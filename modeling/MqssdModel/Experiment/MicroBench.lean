import Mathlib.Algebra.Order.Ring.Nat
import Mathlib.Data.Int.Notation
import Mathlib.Data.Nat.Notation
import Mathlib.Tactic.Ring

namespace MqssdModel.Experiment.MicroBench

/-- A value as a `size_t`. -/
def size (x : ℤ) : ℕ := (x % 2 ^ 64).toNat

/-- A value as an `int`. -/
def int (x : ℤ) : ℤ := Int.bmod x (2 ^ 32)

/-- The static variables and the thread count, as `main` sets them. -/
structure Setup where
  fileSize : ℕ
  accessSize : ℕ
  readFlag : Bool
  numThreads : ℕ

def Setup.numAccesses (s : Setup) : ℕ := 10 * 1024 * 1024 * 1024 / s.accessSize

/-- The `offsets` array after the loop in `main`, from the random words in it. -/
def Setup.offsets (s : Setup) (words : ℕ → ℕ) (i : ℕ) : ℕ :=
  if i < size (s.numThreads * s.numAccesses) then words i % size (s.fileSize - s.accessSize)
  else words i

structure Access where
  read : Bool
  size : ℕ
  offset : ℕ
  deriving DecidableEq

/-- The numbers in the line `ERROR: only %d B of %lu B read/written`. -/
structure Report where
  ret : ℤ
  accessSize : ℕ
  deriving DecidableEq

/-- A round of the loop in `worker_thread`: the access, what the call returns and what is
printed. -/
structure Step where
  access : Access
  result : ℤ
  report : Option Report

/-- One access. The result is kept in an `int`, which is compared with a `size_t`. -/
def Setup.step (s : Setup) (offset : ℕ) (result : ℤ) : Step where
  access := ⟨s.readFlag, s.accessSize, offset⟩
  result := result
  report := if size (int result) < s.accessSize then some ⟨int result, s.accessSize⟩ else none

/-- The loop from the round `i` on, `count` rounds. -/
def Setup.rounds (s : Setup) (offsets : ℕ → ℕ) (results : ℕ → ℤ) : ℕ → ℕ → List Step
  | 0, _ => []
  | count + 1, i => s.step (offsets i) (results i) :: s.rounds offsets results count (i + 1)

def Setup.workerThread (s : Setup) (offsets : ℕ → ℕ) (results : ℕ → ℤ) : List Step :=
  s.rounds offsets results s.numAccesses 0

/-- What the threads do; the thread `t` gets the array from `t * num_accesses` on. -/
def Setup.main (s : Setup) (words : ℕ → ℕ) (results : ℕ → ℕ → ℤ) : List (List Step) :=
  (List.range s.numThreads).map fun t : ℕ ↦
    s.workerThread (fun i ↦ s.offsets words (size (t * s.numAccesses) + i)) (results t)

/-- The sizes that the benchmark is run with, for which the array of offsets fits in memory. -/
structure Setup.Ok (s : Setup) : Prop where
  pos : 0 < s.accessSize
  lt : s.accessSize < s.fileSize
  int : s.accessSize < 2 ^ 31
  file : s.fileSize < 2 ^ 64
  array : 8 * (s.numThreads * s.numAccesses) < 2 ^ 64

variable {s : Setup} {offsets words : ℕ → ℕ} {rs : ℕ → ℤ} {results : ℕ → ℕ → ℤ}

theorem size_of_lt {x : ℕ} (h : x < 2 ^ 64) : size x = x := by
  unfold size
  omega

theorem int_of_le {s : Setup} (h : s.Ok) {r : ℤ} (hlow : -1 ≤ r) (hhigh : r ≤ s.accessSize) :
    int r = r := by
  have hint := h.int
  exact Int.bmod_eq_of_le (by norm_num; omega) (by norm_num; omega)

theorem length_rounds (count i : ℕ) : (s.rounds offsets rs count i).length = count := by
  induction count generalizing i with
  | zero => rfl
  | succ count ih => rw [Setup.rounds, List.length_cons, ih]

theorem getElem?_rounds {count j : ℕ} (i : ℕ) (hj : j < count) :
    (s.rounds offsets rs count i)[j]? = some (s.step (offsets (i + j)) (rs (i + j))) := by
  induction count generalizing i j with
  | zero => exact absurd hj (Nat.not_lt_zero j)
  | succ count ih =>
    rw [Setup.rounds]
    cases j with
    | zero => rfl
    | succ j =>
      rw [List.getElem?_cons_succ, ih (i + 1) (by omega), show i + 1 + j = i + (j + 1) by omega]

/-- The place of the access `i` of the thread `t` in the array. -/
theorem slice_lt {t i : ℕ} (ht : t < s.numThreads) (hi : i < s.numAccesses) :
    t * s.numAccesses + i < s.numThreads * s.numAccesses := by
  have hle : (t + 1) * s.numAccesses ≤ s.numThreads * s.numAccesses :=
    Nat.mul_le_mul_right _ ht
  rw [Nat.add_mul, Nat.one_mul] at hle
  omega

theorem slice_inj {n t t' i i' : ℕ} (hi : i < n) (hi' : i' < n)
    (h : t * n + i = t' * n + i') : t = t' ∧ i = i' := by
  have hn : 0 < n := by omega
  have hdiv : (t * n + i) / n = t := by
    rw [Nat.mul_comm, Nat.mul_add_div hn, Nat.div_eq_of_lt hi, Nat.add_zero]
  have hdiv' : (t' * n + i') / n = t' := by
    rw [Nat.mul_comm, Nat.mul_add_div hn, Nat.div_eq_of_lt hi', Nat.add_zero]
  have ht : t = t' := by rw [← hdiv, h, hdiv']
  subst ht
  exact ⟨rfl, by omega⟩

theorem offset_in_file (h : s.Ok) {j : ℕ} (hj : j < s.numThreads * s.numAccesses) :
    s.offsets words j + s.accessSize ≤ s.fileSize := by
  have hlt := h.lt
  have hfile := h.file
  have harray := h.array
  have htotal : size (s.numThreads * s.numAccesses) = s.numThreads * s.numAccesses := by
    have := size_of_lt (x := s.numThreads * s.numAccesses) (by omega)
    rwa [Nat.cast_mul] at this
  have hroom : size (s.fileSize - s.accessSize) = s.fileSize - s.accessSize := by
    unfold size
    omega
  unfold Setup.offsets
  rw [htotal, if_pos hj, hroom]
  have hmod : words j % (s.fileSize - s.accessSize) < s.fileSize - s.accessSize :=
    Nat.mod_lt _ (by omega)
  omega

/-- A short access is reported; -1 is the largest `size_t` and passes the test. -/
theorem report_iff (h : s.Ok) {offset : ℕ} {r : ℤ} (hlow : -1 ≤ r) (hhigh : r ≤ s.accessSize) :
    (s.step offset r).report.isSome ↔ r ≠ s.accessSize ∧ r ≠ -1 := by
  have hint := h.int
  have hpos := h.pos
  have hsize : size r < s.accessSize ↔ r ≠ s.accessSize ∧ r ≠ -1 := by
    unfold size
    omega
  rw [← hsize, Setup.step, int_of_le h hlow hhigh]
  by_cases hlt : size r < s.accessSize
  · simp [hlt]
  · simp [hlt]

variable (words) in
theorem worker_accesses (h : s.Ok) (hr : ∀ t i, -1 ≤ results t i ∧ results t i ≤ s.accessSize)
    {t : ℕ} (ht : t < s.numThreads) : ∃ steps, (s.main words results)[t]? = some steps ∧
      steps.length = s.numAccesses ∧ ∀ i < s.numAccesses, ∃ step, steps[i]? = some step ∧
        step.access = ⟨s.readFlag, s.accessSize, s.offsets words (t * s.numAccesses + i)⟩ ∧
        step.result = results t i ∧
        step.access.offset + s.accessSize ≤ s.fileSize ∧
        (step.report.isSome ↔ step.result ≠ s.accessSize ∧ step.result ≠ -1) := by
  refine ⟨_, by rw [Setup.main, List.getElem?_map, List.getElem?_range ht]; rfl,
    length_rounds _ _, fun i hi ↦ ⟨_, getElem?_rounds 0 hi, ?_⟩⟩
  have hslice := slice_lt ht hi
  have harray := h.array
  have hbase : size (t * s.numAccesses) = t * s.numAccesses := by
    have := size_of_lt (x := t * s.numAccesses) (by omega)
    rwa [Nat.cast_mul] at this
  rw [Nat.zero_add, hbase]
  exact ⟨rfl, rfl, offset_in_file h hslice, report_iff h (hr t i).1 (hr t i).2⟩

/-- Every worker makes its accesses, at its own part of the array and inside the file; what it
prints is exactly what is due as long as no call returns -1. -/
theorem failures_reported_iff (h : s.Ok) (words : ℕ → ℕ)
    (hr : ∀ t i, -1 ≤ results t i ∧ results t i ≤ s.accessSize) :
    (s.main words results).length = s.numThreads ∧
    (∀ t < s.numThreads, ∃ steps, (s.main words results)[t]? = some steps ∧
      steps.length = s.numAccesses ∧ ∀ i < s.numAccesses, ∃ step, steps[i]? = some step ∧
        step.access = ⟨s.readFlag, s.accessSize, s.offsets words (t * s.numAccesses + i)⟩ ∧
        step.result = results t i ∧ step.access.offset + s.accessSize ≤ s.fileSize ∧
        ((step.report.isSome ↔ step.result ≠ s.accessSize) ↔ results t i ≠ -1)) ∧
    ∀ t t' i i', i < s.numAccesses → i' < s.numAccesses →
      t * s.numAccesses + i = t' * s.numAccesses + i' → t = t' ∧ i = i' := by
  refine ⟨by simp [Setup.main], fun t ht ↦ ?_, fun t t' i i' hi hi' ↦ slice_inj hi hi'⟩
  obtain ⟨steps, hsteps, hlen, hall⟩ := worker_accesses words h hr ht
  refine ⟨steps, hsteps, hlen, fun i hi ↦ ?_⟩
  obtain ⟨step, hstep, haccess, hresult, hfile, hreport⟩ := hall i hi
  refine ⟨step, hstep, haccess, hresult, hfile, ?_⟩
  rw [hreport, hresult]
  constructor
  · rintro hiff hneg
    have hne : results t i ≠ s.accessSize := by omega
    exact (hiff.mpr hne).2 hneg
  · intro hneg
    exact and_iff_left hneg

/-- Four threads read 64 KiB at a time from a file of 1 MiB. -/
def sample : Setup := ⟨1048576, 65536, true, 4⟩

theorem sample_ok : sample.Ok := by
  constructor <;> decide

/-- Every second access is short. -/
theorem failures_reported_sample :
    (sample.main (fun i ↦ 7 * i) fun _ i ↦ if i % 2 = 0 then 65536 else 4096).length = 4 ∧
    (∀ t < 4, ∃ steps,
      (sample.main (fun i ↦ 7 * i) fun _ i ↦ if i % 2 = 0 then 65536 else 4096)[t]? =
        some steps ∧ steps.length = sample.numAccesses ∧
      ∀ i < sample.numAccesses, ∃ step, steps[i]? = some step ∧
        step.access = ⟨true, 65536, sample.offsets (fun i ↦ 7 * i) (t * sample.numAccesses + i)⟩ ∧
        step.result = (if i % 2 = 0 then 65536 else 4096) ∧
        step.access.offset + 65536 ≤ 1048576 ∧
        ((step.report.isSome ↔ step.result ≠ 65536) ↔
          (if i % 2 = 0 then 65536 else 4096) ≠ (-1 : ℤ))) ∧
    ∀ t t' i i', i < sample.numAccesses → i' < sample.numAccesses →
      t * sample.numAccesses + i = t' * sample.numAccesses + i' → t = t' ∧ i = i' := by
  refine failures_reported_iff sample_ok (fun i ↦ 7 * i) fun t i ↦ ?_
  have hsize : (sample.accessSize : ℤ) = 65536 := rfl
  rw [hsize]
  split_ifs <;> decide

/-- An access that fails is not reported. -/
theorem not_reported_sample : sample.Ok ∧ ∃ steps step,
    (sample.main (fun _ ↦ 0) fun _ _ ↦ -1)[0]? = some steps ∧ steps[0]? = some step ∧
      step.result = -1 ∧ step.report = none := by
  refine ⟨sample_ok, _, _, rfl, getElem?_rounds 0 (by decide), rfl, by decide⟩

end MqssdModel.Experiment.MicroBench
