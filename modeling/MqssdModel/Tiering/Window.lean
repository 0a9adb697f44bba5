import Mathlib.Tactic.Ring
import MqssdModel.Tiering.Schedule

namespace MqssdModel.Tiering.Window

open Picker Schedule

/-- After runs of total size `total`, the size-ratio test takes `n` more runs of the list. -/
def Extends : ℕ → ℕ → List ℕ → Prop
  | 0, _, _ => True
  | _ + 1, _, [] => False
  | n + 1, total, x :: xs => 100 * x ≤ 101 * total ∧ Extends n (total + x) xs

/-- The newest `fanout` runs of a list of sizes pass the size-ratio test. -/
def Mergeable (fanout : ℕ) : List ℕ → Prop
  | [] => False
  | x :: xs => Extends (fanout - 1) x xs

theorem Extends.length_le {n total : ℕ} {xs : List ℕ} (h : Extends n total xs) :
    n ≤ xs.length := by
  induction n generalizing total xs with
  | zero => exact Nat.zero_le _
  | succ n ih =>
    cases xs with
    | nil => exact h.elim
    | cons x xs => exact Nat.succ_le_succ (ih h.2)

/-- The test only looks at the runs it takes. -/
theorem extends_append {n total : ℕ} {xs : List ℕ} (ys : List ℕ) (hn : n ≤ xs.length) :
    Extends n total (xs ++ ys) ↔ Extends n total xs := by
  induction n generalizing total xs with
  | zero => exact Iff.rfl
  | succ n ih =>
    cases xs with
    | nil => simp at hn
    | cons x xs =>
      simp only [List.cons_append, Extends]
      rw [ih (by simpa using hn)]

theorem Mergeable.length_le {F : ℕ} {xs : List ℕ} (h : Mergeable F xs) : F ≤ xs.length := by
  cases xs with
  | nil => exact h.elim
  | cons x xs =>
    have hl := Extends.length_le h
    simp only [List.length_cons]
    omega

theorem mergeable_append {F : ℕ} {xs : List ℕ} (ys : List ℕ) (hF : 0 < F)
    (hn : F ≤ xs.length) : Mergeable F (xs ++ ys) ↔ Mergeable F xs := by
  cases xs with
  | nil => simp at hn; omega
  | cons x xs =>
    simp only [List.length_cons] at hn
    exact extends_append ys (by omega)

/-- Runs that stay close to each other extend any total at least as large. -/
theorem extends_of_near {n total m : ℕ} {xs : List ℕ} (hn : n ≤ xs.length) (hm : m ≤ total)
    (hx : ∀ x ∈ xs, 100 * x ≤ 101 * m) : Extends n total xs := by
  induction n generalizing total xs with
  | zero => trivial
  | succ n ih =>
    cases xs with
    | nil => simp at hn
    | cons x xs =>
      have h := hx x List.mem_cons_self
      exact ⟨by omega, ih (by simpa using hn) (by omega)
        (fun y hy ↦ hx y (List.mem_cons_of_mem x hy))⟩

/-- A run too large for everything newer stops the test. -/
theorem not_extends_of_gap {n total : ℕ} {xs ys : List ℕ} {y : ℕ} (hn : xs.length < n)
    (hy : 101 * (total + xs.sum) < 100 * y) : ¬ Extends n total (xs ++ y :: ys) := by
  induction xs generalizing n total with
  | nil =>
    cases n with
    | zero => simp at hn
    | succ n =>
      rintro ⟨h, -⟩
      simp only [List.sum_nil] at hy
      omega
  | cons x xs ih =>
    cases n with
    | zero => simp at hn
    | succ n =>
      rintro ⟨-, h⟩
      refine ih (by simpa using hn) ?_ h
      simp only [List.sum_cons] at hy
      omega

variable {F : ℕ}

theorem mqssd_fields (F : ℕ) : (mqssdOptions F).stopStyle = .totalSize ∧
    (mqssdOptions F).sizeRatio = 1 ∧ (mqssdOptions F).minMergeWidth = F ∧
    (mqssdOptions F).maxMergeWidth = F ∧
    (mqssdOptions F).maxSizeAmplificationPercent = 100 * ((F - 1) + F / (F - 1)) ∧
    (mqssdOptions F).disableAutoCompactions = false ∧
    (mqssdOptions F).maxWriteBufferNumber = 2 :=
  ⟨rfl, rfl, rfl, rfl, rfl, rfl, rfl⟩

theorem mqssd_trigger (hF : 2 ≤ F) : (mqssdOptions F).level0FileNumCompactionTrigger = F := by
  have h : (universalOptions F).level0FileNumCompactionTrigger ≠ 0 := by
    change (F : ℤ) ≠ 0
    omega
  exact if_neg h

/-- The default stop trigger, raised to the fanout by `SanitizeOptions`. -/
theorem mqssd_stop (F : ℕ) : (mqssdOptions F).level0StopWritesTrigger = max 36 F := by
  simp only [mqssdOptions, sanitizeOptions, universalOptions]
  split_ifs <;> omega

theorem sizeAmp_percent (hF : 2 ≤ F) : 100 * F ≤ (mqssdOptions F).maxSizeAmplificationPercent := by
  have h : 1 ≤ F / (F - 1) := (Nat.le_div_iff_mul_le (by omega)).mpr (by omega)
  rw [(mqssd_fields F).2.2.2.2.1]
  omega

theorem countCandidates_le {o : Options} {ratio w : ℕ} (runs : List SortedRun) (c total : ℕ)
    (hc : c ≤ w) : countCandidates o ratio w c total runs ≤ w := by
  induction runs generalizing c total with
  | nil => exact hc
  | cons r runs ih =>
    unfold countCandidates
    cases o.stopStyle with
    | similarSize =>
      dsimp only
      split_ifs with h₀
      · exact hc
      · exact hc
      · exact hc
      · exact ih _ _ h₀
      · exact hc
    | totalSize =>
      dsimp only
      split_ifs with h₀
      · exact hc
      · exact hc
      · exact ih _ _ h₀
      · exact hc

/-- On idle runs the inner loop fills the window exactly when the test extends to it. -/
theorem countCandidates_full {runs : List Run} (hi : Idle runs) (c total : ℕ) (hc : c ≤ F) :
    F ≤ countCandidates (mqssdOptions F) 1 F c total (runs.map Run.toSortedRun) ↔
      Extends (F - c) total (runs.map Run.size) := by
  induction runs generalizing c total with
  | nil =>
    simp only [List.map_nil, countCandidates]
    rcases Nat.lt_or_ge c F with h | h
    · obtain ⟨n, hn⟩ : ∃ n, F - c = n + 1 := ⟨F - c - 1, by omega⟩
      simp only [hn, Extends, iff_false, not_le]
      exact h
    · simp [Nat.sub_eq_zero_of_le h, Extends, h]
  | cons r runs ih =>
    have hr : r.job = none := hi r List.mem_cons_self
    have hs : Idle runs := fun s hs ↦ hi s (List.mem_cons_of_mem r hs)
    simp only [List.map_cons, countCandidates, (mqssd_fields F).1]
    rcases Nat.lt_or_ge c F with h | h
    · obtain ⟨n, hn⟩ : ∃ n, F - c = n + 1 := ⟨F - c - 1, by omega⟩
      simp only [h, if_true, Run.toSortedRun, hr, Option.isSome_none, Bool.false_eq_true,
        if_false, hn, Extends]
      split_ifs with hlt
      · constructor
        · intro hle; omega
        · rintro ⟨hle, -⟩; omega
      · rw [ih hs (c + 1) (total + r.size) h, show F - (c + 1) = n by omega]
        exact ⟨fun hx ↦ ⟨by omega, hx⟩, fun hx ↦ hx.2⟩
    · rw [if_neg (by omega), Nat.sub_eq_zero_of_le h]
      exact iff_of_true h trivial

theorem findCandidates_none {runs : List Run} (hF : 2 ≤ F) (hi : Idle runs) (loop : ℕ)
    (hm : ∀ newer older, runs.map Run.size = newer ++ older → ¬ Mergeable F older) :
    findCandidates (mqssdOptions F) 1 F F loop (runs.map Run.toSortedRun) = none := by
  induction runs generalizing loop with
  | nil => rfl
  | cons r runs ih =>
    have hr : r.job = none := hi r List.mem_cons_self
    have hs : Idle runs := fun s hs ↦ hi s (List.mem_cons_of_mem r hs)
    have hfull : ¬ F ≤ countCandidates (mqssdOptions F) 1 F 1 r.size
        (runs.map Run.toSortedRun) := by
      rw [countCandidates_full hs 1 r.size (by omega)]
      exact hm [] _ rfl
    have hbusy : r.toSortedRun.beingCompacted = false := by simp [Run.toSortedRun, hr]
    rw [List.map_cons, findCandidates, hbusy, if_neg Bool.false_ne_true]
    change ite (F ≤ countCandidates (mqssdOptions F) 1 F 1 r.size _) _ _ = none
    rw [if_neg hfull]
    refine ih hs (loop + 1) (fun newer older he ↦ hm (r.size :: newer) older ?_)
    rw [List.map_cons, he, List.cons_append]

theorem findCandidates_busy (busy rest : List Run) (hb : ∀ r ∈ busy, r.job.isSome) (loop : ℕ) :
    findCandidates (mqssdOptions F) 1 F F loop ((busy ++ rest).map Run.toSortedRun) =
      findCandidates (mqssdOptions F) 1 F F (loop + busy.length)
        (rest.map Run.toSortedRun) := by
  induction busy generalizing loop with
  | nil => rfl
  | cons r busy ih =>
    have hr : r.job.isSome := hb r List.mem_cons_self
    have hbusy : r.toSortedRun.beingCompacted = true := hr
    rw [List.cons_append, List.map_cons, findCandidates, hbusy, if_pos rfl,
      ih (fun s hs ↦ hb s (List.mem_cons_of_mem r hs)) (loop + 1), List.length_cons,
      Nat.add_right_comm, Nat.add_assoc]

theorem findCandidates_first {runs : List Run} (hF : 2 ≤ F) (hi : Idle runs)
    (hm : Mergeable F (runs.map Run.size)) :
    findCandidates (mqssdOptions F) 1 F F 0 (runs.map Run.toSortedRun) = some (0, F) := by
  cases runs with
  | nil => exact hm.elim
  | cons r runs =>
    have hr : r.job = none := hi r List.mem_cons_self
    have hs : Idle runs := fun s hs ↦ hi s (List.mem_cons_of_mem r hs)
    have hfull : F ≤ countCandidates (mqssdOptions F) 1 F 1 r.size
        (runs.map Run.toSortedRun) := by
      rw [countCandidates_full hs 1 r.size (by omega)]
      exact hm
    have hle : countCandidates (mqssdOptions F) 1 F 1 r.size (runs.map Run.toSortedRun) ≤ F :=
      countCandidates_le _ 1 r.size (by omega)
    have hbusy : r.toSortedRun.beingCompacted = false := by simp [Run.toSortedRun, hr]
    rw [List.map_cons, findCandidates, hbusy, if_neg Bool.false_ne_true]
    change ite (F ≤ countCandidates (mqssdOptions F) 1 F 1 r.size _)
      (some (0, countCandidates (mqssdOptions F) 1 F 1 r.size _)) _ = _
    rw [if_pos hfull, Nat.le_antisymm hle hfull]

/-- Runs already being compacted at the newest end do not bring the size-amplification
rule to fire on the idle rest. -/
theorem sizeAmp_none (check : OverlapCheck) (hF : 2 ≤ F) {busy rest : List Run}
    (hb : ∀ r ∈ busy, r.job.isSome) (hi : Idle rest)
    (hamp : ∀ newer base, rest.map Run.size = newer ++ [base] → newer.sum < F * base) :
    pickCompactionToReduceSizeAmp (mqssdOptions F) check
      ((busy ++ rest).map Run.toSortedRun) = none := by
  rcases List.eq_nil_or_concat rest with rfl | ⟨newer, base, rfl⟩
  · rcases List.eq_nil_or_concat busy with rfl | ⟨busy', last, rfl⟩
    · rfl
    · have hl : last.job.isSome := hb last (by simp)
      simp [pickCompactionToReduceSizeAmp, Run.toSortedRun, hl]
  · have hbase : base.job = none := hi base (by simp)
    have hnewer : ∀ r ∈ newer, r.job = none := fun r hr ↦ hi r (by simp [hr])
    have hlt := hamp (newer.map Run.size) base.size (by simp)
    have htake : ((busy ++ newer).map Run.toSortedRun).takeWhile (·.beingCompacted) =
        busy.map Run.toSortedRun := by
      rw [List.map_append, List.takeWhile_append_of_pos]
      · cases newer with
        | nil => simp
        | cons r newer => simp [Run.toSortedRun, hnewer r List.mem_cons_self]
      · intro s hs
        obtain ⟨r, hr, rfl⟩ := List.mem_map.mp hs
        exact hb r hr
    have hdrop : ((busy ++ newer).map Run.toSortedRun).drop (busy.map Run.toSortedRun).length =
        newer.map Run.toSortedRun := by
      rw [List.map_append, List.drop_left]
    have hsum : ((newer.map Run.toSortedRun).map (·.compensatedFileSize)).sum =
        (newer.map Run.size).sum := by
      rw [List.map_map]
      rfl
    have hpct := Nat.mul_le_mul_right base.size (sizeAmp_percent hF)
    have hcmp : (newer.map Run.size).sum * 100 <
        (mqssdOptions F).maxSizeAmplificationPercent * base.size := by
      have h := Nat.mul_lt_mul_of_pos_left hlt (show 0 < 100 by omega)
      rw [← Nat.mul_assoc] at h
      omega
    have hlast : ((busy ++ newer.concat base).map Run.toSortedRun).dropLast =
        (busy ++ newer).map Run.toSortedRun := by
      rw [List.concat_eq_append, ← List.append_assoc, List.map_append, List.map_singleton,
        List.dropLast_concat]
    have hget : ((busy ++ newer.concat base).map Run.toSortedRun).getLast? =
        some base.toSortedRun := by simp
    unfold pickCompactionToReduceSizeAmp
    rw [hget, hlast]
    dsimp only
    rw [htake, hdrop, hsum]
    split_ifs with h₁ h₂ h₃ h₄
    · rfl
    · rfl
    · rfl
    · rfl
    · exact absurd hcmp h₄

/-- While the idle runs hold no mergeable window and little next to the oldest one,
nothing is picked, whatever is being compacted at the newest end. -/
theorem pick_none (check : OverlapCheck) (hF : 2 ≤ F) {busy rest : List Run}
    (hb : ∀ r ∈ busy, r.job.isSome) (hi : Idle rest)
    (hm : ∀ newer older, rest.map Run.size = newer ++ older → ¬ Mergeable F older)
    (hamp : ∀ newer base, rest.map Run.size = newer ++ [base] → newer.sum < F * base) :
    pick (mqssdOptions F) check (busy ++ rest) = none := by
  have hfind := findCandidates_busy (F := F) busy rest hb 0
  rw [findCandidates_none hF hi _ hm] at hfind
  unfold pick pickCompaction
  split_ifs
  · rfl
  · rw [sizeAmp_none check hF hb hi hamp]
    dsimp only
    unfold pickCompactionToReduceSortedRuns
    obtain ⟨-, hratio, hmin, hmax, -⟩ := mqssd_fields F
    simp only [hratio, hmin, hmax, Nat.max_eq_left hF, hfind]

/-- An idle store whose newest runs are mergeable merges exactly those. -/
theorem pick_first (check : OverlapCheck) (hF : 2 ≤ F) {runs : List Run} (hi : Idle runs)
    (hm : Mergeable F (runs.map Run.size))
    (hamp : ∀ newer base, runs.map Run.size = newer ++ [base] → newer.sum < F * base) :
    pick (mqssdOptions F) check runs = some ⟨0, F, .universalSizeRatio⟩ := by
  have hlen := hm.length_le
  rw [List.length_map] at hlen
  have hidle : ∀ r ∈ runs.map Run.toSortedRun, r.beingCompacted = false := by
    intro s hs
    obtain ⟨r, hr, rfl⟩ := List.mem_map.mp hs
    simp [Run.toSortedRun, hi r hr]
  have hamp' : pickCompactionToReduceSizeAmp (mqssdOptions F) check
      (([] ++ runs).map Run.toSortedRun) = none := sizeAmp_none check hF (by simp) hi hamp
  rw [List.nil_append] at hamp'
  unfold pick pickCompaction
  rw [if_neg, hamp']
  · dsimp only
    unfold pickCompactionToReduceSortedRuns
    obtain ⟨-, hratio, hmin, hmax, -⟩ := mqssd_fields F
    simp only [hratio, hmin, hmax, Nat.max_eq_left hF, findCandidates_first hF hi hm,
      check.idle _ _ _ hidle, Bool.false_eq_true, if_false]
    rw [if_neg (by omega)]
  · rw [mqssd_trigger hF, List.length_map]
    omega

end MqssdModel.Tiering.Window
