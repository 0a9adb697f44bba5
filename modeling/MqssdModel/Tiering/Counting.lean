import Mathlib.Algebra.Order.Floor.Semiring
import Mathlib.Data.Rat.Floor
import Mathlib.Tactic.Linarith
import MqssdModel.Tiering.Digits

namespace MqssdModel.Tiering.Counting

open Picker Schedule Window Digits

def flushCount (r : Run) : ℕ := r.flushes.length

/-- Flush sizes between `lo` and `hi` are so close that equally many flushes always pass
the size-ratio test and `F - 1` runs never reach the size of the next tier. -/
structure Spread (F lo hi : ℕ) : Prop where
  fanout : 2 ≤ F
  pos : 0 < lo
  near : 100 * hi ≤ 101 * lo
  gap : 101 * ((F - 1) * hi) < 100 * (F * lo)

/-- Idle runs made of flushes of sizes between `lo` and `hi`. -/
def Sized (lo hi : ℕ) (runs : List Run) : Prop :=
  ∀ r ∈ runs, r.job = none ∧ ∀ x ∈ r.flushes, lo ≤ x ∧ x ≤ hi

variable {F lo hi : ℕ} {runs : List Run} {check : OverlapCheck}

theorem Sized.idle (h : Sized lo hi runs) : Idle runs := fun r hr ↦ (h r hr).1

theorem Sized.mono {runs' : List Run} (h : Sized lo hi runs) (hs : ∀ r ∈ runs', r ∈ runs) :
    Sized lo hi runs' := fun r hr ↦ h r (hs r hr)

theorem size_bounds (h : Sized lo hi runs) {r : Run} (hr : r ∈ runs) :
    lo * flushCount r ≤ r.size ∧ r.size ≤ hi * flushCount r := by
  have hx := (h r hr).2
  unfold Run.size flushCount
  generalize r.flushes = xs at hx
  induction xs with
  | nil => simp
  | cons x xs ih =>
    have h₀ := hx x List.mem_cons_self
    have h₁ := ih (fun y hy ↦ hx y (List.mem_cons_of_mem x hy))
    simp only [List.sum_cons, List.length_cons, Nat.mul_succ]
    omega

theorem sum_le (h : Sized lo hi runs) :
    (runs.map Run.size).sum ≤ hi * (runs.map flushCount).sum := by
  induction runs with
  | nil => simp
  | cons r runs ih =>
    have h₀ := (size_bounds h List.mem_cons_self).2
    have h₁ := ih (h.mono fun s hs ↦ List.mem_cons_of_mem r hs)
    simp only [List.map_cons, List.sum_cons, Nat.mul_add]
    omega

theorem Sized.merge (h : Sized lo hi runs) : Sized lo hi [mergeRuns runs] := by
  intro r hr
  rw [List.mem_singleton.mp hr]
  refine ⟨rfl, fun x hx ↦ ?_⟩
  obtain ⟨s, hs, hx⟩ := List.mem_flatMap.mp hx
  exact (h s hs).2 x hx

theorem flushCount_merge (runs : List Run) :
    flushCount (mergeRuns runs) = (runs.map flushCount).sum := by
  simp only [flushCount, mergeRuns, List.length_flatMap]
  rfl

/-- A tier of at most `F - 1` runs is too small for the run behind it. -/
theorem not_mergeable_tier (hs : Spread F lo hi) {i d : ℕ} {first : ℕ} {tier rest : List Run}
    (ht : Sized lo hi tier) (hr : Sized lo hi rest) (hd : d < F)
    (htc : tier.map flushCount = List.replicate d (F ^ i))
    (hrc : ∀ r ∈ rest, F ^ (i + 1) ≤ flushCount r) (newer mid : List ℕ)
    (he : tier.map Run.size = newer ++ first :: mid) :
    ¬ Mergeable F (first :: mid ++ rest.map Run.size) := by
  have hlen : newer.length + (mid.length + 1) = d := by
    have h := congrArg List.length he
    have h' := congrArg List.length htc
    simp only [List.length_map, List.length_append, List.length_cons,
      List.length_replicate] at h h'
    omega
  cases rest with
  | nil =>
    intro hm
    have h := hm.length_le
    simp only [List.map_nil, List.append_nil, List.length_cons] at h
    omega
  | cons r rest =>
    refine not_extends_of_gap (by omega) ?_
    have hsum : newer.sum + (first + mid.sum) ≤ hi * (d * F ^ i) := by
      have h := sum_le ht
      rw [htc, he] at h
      simpa [List.sum_replicate] using h
    have hsize : lo * F ^ (i + 1) ≤ r.size :=
      (Nat.mul_le_mul_left lo (hrc r List.mem_cons_self)).trans
        (size_bounds hr List.mem_cons_self).1
    have hgap := Nat.mul_lt_mul_of_pos_right hs.gap
      (Nat.pow_pos (n := i) (show 0 < F by have := hs.fanout; omega))
    have hle : hi * (d * F ^ i) ≤ (F - 1) * hi * F ^ i := by
      rw [← Nat.mul_assoc, Nat.mul_comm hi d]
      exact Nat.mul_le_mul_right _ (Nat.mul_le_mul_right _ (by omega))
    rw [Nat.pow_succ, Nat.mul_comm (F ^ i) F, ← Nat.mul_assoc, Nat.mul_comm lo F] at hsize
    rw [Nat.mul_assoc, Nat.mul_assoc 100] at hgap
    omega

/-- No window of a digit state is mergeable, wherever it starts. -/
theorem not_mergeable_digits (hs : Spread F lo hi) {i : ℕ} {ds : List ℕ} (hsz : Sized lo hi runs)
    (hd : ∀ x ∈ ds, x < F) (hc : runs.map flushCount = tierCounts F i ds)
    (newer older : List ℕ) (he : runs.map Run.size = newer ++ older) : ¬ Mergeable F older := by
  induction ds generalizing i runs newer with
  | nil =>
    rw [tierCounts, List.map_eq_nil_iff] at hc
    subst hc
    rw [(List.append_eq_nil_iff.mp he.symm).2]
    exact id
  | cons d ds ih =>
    obtain ⟨tier, rest, rfl, htier, hrest⟩ := List.map_eq_append_iff.mp hc
    have ht : Sized lo hi tier := hsz.mono fun r hr ↦ List.mem_append_left _ hr
    have hr : Sized lo hi rest := hsz.mono fun r hr ↦ List.mem_append_right _ hr
    have hpow : ∀ r ∈ rest, F ^ (i + 1) ≤ flushCount r := fun r hm ↦
      pow_le_of_mem (by have := hs.fanout; omega) (hrest ▸ List.mem_map_of_mem hm)
    rw [List.map_append] at he
    rcases List.append_eq_append_iff.mp he with ⟨a, rfl, hrs⟩ | ⟨a, hts, rfl⟩
    · exact ih hr (fun x hx ↦ hd x (List.mem_cons_of_mem d hx)) hrest a hrs
    · cases a with
      | nil => exact ih hr (fun x hx ↦ hd x (List.mem_cons_of_mem d hx)) hrest [] rfl
      | cons first mid =>
        exact not_mergeable_tier hs ht hr (hd d List.mem_cons_self) htier hpow newer mid hts

theorem mergeable_tier (hs : Spread F lo hi) {c : ℕ} {tier rest : List Run}
    (ht : Sized lo hi tier) (htc : tier.map flushCount = List.replicate F c) :
    Mergeable F ((tier ++ rest).map Run.size) := by
  have hF := hs.fanout
  have hlen : tier.length = F := by simpa using congrArg List.length htc
  have hcount : ∀ r ∈ tier, flushCount r = c := fun r hr ↦
    List.eq_of_mem_replicate (htc ▸ List.mem_map_of_mem hr)
  rw [List.map_append, mergeable_append _ (by omega) (by simp [hlen])]
  cases tier with
  | nil => simp at hlen; omega
  | cons r tier =>
    have hfirst := (size_bounds ht List.mem_cons_self).1
    rw [hcount r List.mem_cons_self] at hfirst
    refine extends_of_near (by simp at hlen ⊢; omega) hfirst (fun x hx ↦ ?_)
    obtain ⟨t, htm, rfl⟩ := List.mem_map.mp hx
    have hup := (size_bounds ht (List.mem_cons_of_mem r htm)).2
    rw [hcount t (List.mem_cons_of_mem r htm)] at hup
    have hnear := Nat.mul_le_mul_right c hs.near
    rw [Nat.mul_assoc, Nat.mul_assoc] at hnear
    omega

theorem amp_digits (hs : Spread F lo hi) {i : ℕ} {ds : List ℕ} (hsz : Sized lo hi runs)
    (hd : Carry F ds) (hc : runs.map flushCount = tierCounts F i ds)
    (newer : List ℕ) (base : ℕ) (he : runs.map Run.size = newer ++ [base]) :
    newer.sum < F * base := by
  have hF := hs.fanout
  obtain ⟨rs, bs, rfl, hrs, hbs⟩ := List.map_eq_append_iff.mp he
  obtain ⟨b, rfl, rfl⟩ := List.map_eq_singleton_iff.mp hbs
  rw [List.map_append, List.map_singleton] at hc
  have hcount := sum_tierCounts_le hd hc.symm
  have hmem : flushCount b ∈ tierCounts F i ds := by rw [← hc]; simp
  have hpos : 0 < flushCount b := (Nat.pow_pos (n := i) (show 0 < F by omega)).trans_le
    (pow_le_of_mem (by omega) hmem)
  have hnew : newer.sum ≤ hi * (rs.map flushCount).sum :=
    hrs ▸ sum_le (hsz.mono fun r hr ↦ List.mem_append_left _ hr)
  have hbase := (size_bounds hsz (r := b) (by simp)).1
  have hle : (rs.map flushCount).sum ≤ (F - 1) * flushCount b := by
    rw [Nat.sub_mul]
    omega
  have hgap : (F - 1) * hi < F * lo := by have := hs.gap; omega
  calc newer.sum ≤ hi * ((F - 1) * flushCount b) := hnew.trans (Nat.mul_le_mul_left hi hle)
    _ = (F - 1) * hi * flushCount b := by ring
    _ < F * lo * flushCount b := Nat.mul_lt_mul_of_pos_right hgap hpos
    _ ≤ F * b.size := by
      rw [Nat.mul_assoc]
      exact Nat.mul_le_mul_left F hbase

/-- A state between two flushes: digits with at most one carry pending. -/
structure Tiers (F lo hi n : ℕ) (runs : List Run) (ds : List ℕ) : Prop where
  carry : Carry F ds
  value : Nat.ofDigits F ds = n
  counts : runs.map flushCount = tierCounts F 0 ds
  sized : Sized lo hi runs

theorem Tiers.length_eq {n : ℕ} {ds : List ℕ} (h : Tiers F lo hi n runs ds) :
    runs.length = ds.sum := by
  rw [← length_tierCounts (F := F) 0, ← h.counts, List.length_map]

theorem carry_cases {ds : List ℕ} (h : Carry F ds) : (∀ x ∈ ds, x < F) ∨
    ∃ j rest, ds = List.replicate j 0 ++ F :: rest ∧ ∀ x ∈ rest, x < F := by
  induction ds with
  | nil => exact .inl (by simp)
  | cons d ds ih =>
    rcases h with ⟨hle, hlt⟩ | ⟨rfl, hc⟩
    · rcases Nat.lt_or_ge d F with hd | hd
      · refine .inl fun x hx ↦ ?_
        rcases List.mem_cons.mp hx with rfl | hx
        · exact hd
        · exact hlt x hx
      · exact .inr ⟨0, ds, by simp [Nat.le_antisymm hle hd], hlt⟩
    · rcases ih hc with hlt | ⟨j, rest, rfl, hlt⟩
      · rcases Nat.eq_zero_or_pos F with rfl | hF
        · exact .inr ⟨0, ds, rfl, hlt⟩
        · refine .inl fun x hx ↦ ?_
          rcases List.mem_cons.mp hx with rfl | hx
          · exact hF
          · exact hlt x hx
      · exact .inr ⟨j + 1, rest, rfl, hlt⟩

theorem tierCounts_zeros (i j : ℕ) (ds : List ℕ) :
    tierCounts F i (List.replicate j 0 ++ ds) = tierCounts F (i + j) ds := by
  induction j generalizing i with
  | zero => rfl
  | succ j ih =>
    rw [List.replicate_succ, List.cons_append, tierCounts, ih, Nat.add_right_comm]
    rfl

theorem carry_zeros (j : ℕ) {ds : List ℕ} (h : Carry F ds) :
    Carry F (List.replicate j 0 ++ ds) := by
  induction j with
  | zero => exact h
  | succ j ih => exact .inr ⟨rfl, ih⟩

variable (check)

theorem Tiers.sizeAmp {n : ℕ} {ds : List ℕ} (hs : Spread F lo hi) (h : Tiers F lo hi n runs ds) :
    pickCompactionToReduceSizeAmp (mqssdOptions F) check (runs.map Run.toSortedRun) = none := by
  have hamp : pickCompactionToReduceSizeAmp (mqssdOptions F) check
      (([] ++ runs).map Run.toSortedRun) = none :=
    sizeAmp_none check hs.fanout (by simp) h.sized.idle (amp_digits hs h.sized h.carry h.counts)
  rwa [List.nil_append] at hamp

theorem Tiers.pick_none {n : ℕ} {ds : List ℕ} (hs : Spread F lo hi) (h : Tiers F lo hi n runs ds)
    (hd : ∀ x ∈ ds, x < F) : pick (mqssdOptions F) check runs = none := by
  have hp : pick (mqssdOptions F) check ([] ++ runs) = none :=
    Window.pick_none check hs.fanout (by simp) h.sized.idle
      (not_mergeable_digits hs h.sized hd h.counts) (amp_digits hs h.sized h.carry h.counts)
  rwa [List.nil_append] at hp

/-- A pending carry merges exactly the full tier and becomes a run of the next one. -/
theorem Tiers.pick_carry {n j : ℕ} {rest : List ℕ} (hs : Spread F lo hi)
    (h : Tiers F lo hi n runs (List.replicate j 0 ++ F :: rest)) (hr : ∀ x ∈ rest, x < F) :
    pick (mqssdOptions F) check runs = some ⟨0, F, .universalSizeRatio⟩ ∧
    (runs.take F).map flushCount = List.replicate F (F ^ j) ∧
    Tiers F lo hi n (mergeRuns (runs.take F) :: runs.drop F)
      (List.replicate j 0 ++ 0 :: addOne rest) := by
  have hF := hs.fanout
  have hc := h.counts
  rw [tierCounts_zeros, Nat.zero_add, tierCounts] at hc
  obtain ⟨tier, older, rfl, htier, holder⟩ := List.map_eq_append_iff.mp hc
  have ht : Sized lo hi tier := h.sized.mono fun r hr ↦ List.mem_append_left _ hr
  have hlen : tier.length = F := by simpa using congrArg List.length htier
  have htake : (tier ++ older).take F = tier := by rw [← hlen, List.take_left]
  have hdrop : (tier ++ older).drop F = older := by rw [← hlen, List.drop_left]
  rw [htake, hdrop]
  refine ⟨pick_first check hF h.sized.idle (mergeable_tier hs ht htier)
    (amp_digits hs h.sized h.carry h.counts), htier, ?_, ?_, ?_, ?_⟩
  · exact carry_zeros j (.inr ⟨rfl, carry_addOne hF hr⟩)
  · have hv := h.value
    rw [Nat.ofDigits_append, Nat.ofDigits_cons] at hv ⊢
    rw [← hv, ofDigits_addOne]
    ring
  · rw [tierCounts_zeros, Nat.zero_add, tierCounts, List.replicate_zero, List.nil_append,
      tierCounts_addOne, List.map_cons, holder, flushCount_merge, htier, List.sum_replicate,
      Nat.pow_succ, Nat.mul_comm]
    rfl
  · intro r hr
    rcases List.mem_cons.mp hr with rfl | hr
    · exact ht.merge _ (List.mem_singleton_self _)
    · exact h.sized r (List.mem_append_right _ hr)

theorem Tiers.flush {n x : ℕ} {ds : List ℕ} (hs : Spread F lo hi) (h : Tiers F lo hi n runs ds)
    (hd : ∀ y ∈ ds, y < F) (hx : lo ≤ x ∧ x ≤ hi) :
    Tiers F lo hi (n + 1) (flushRun x :: runs) (addOne ds) where
  carry := carry_addOne hs.fanout hd
  value := by rw [ofDigits_addOne, h.value]
  counts := by rw [tierCounts_addOne, List.map_cons, h.counts, Nat.pow_zero]; rfl
  sized := by
    intro r hr
    rcases List.mem_cons.mp hr with rfl | hr
    · exact ⟨rfl, fun y hy ↦ (List.mem_singleton.mp hy) ▸ hx⟩
    · exact h.sized r hr

/-- Compaction that keeps up: a flush completes only when `PickCompaction` returns null,
and every picked compaction is applied. The list holds the flushes, newest first. -/
inductive KeepUp (o : Options) (check : OverlapCheck) : List ℕ → List Run → Prop
  | nil : KeepUp o check [] []
  | flush {fs : List ℕ} {runs : List Run} (x : ℕ) : KeepUp o check fs runs →
      pick o check runs = none → KeepUp o check (x :: fs) (flushRun x :: runs)
  | compact {fs : List ℕ} {runs : List Run} {c : Compaction} : KeepUp o check fs runs →
      pick o check runs = some c → KeepUp o check fs (applyCompaction c runs)

variable {check}

theorem KeepUp.tiers (hs : Spread F lo hi) {fs : List ℕ} (hfs : ∀ x ∈ fs, lo ≤ x ∧ x ≤ hi)
    (h : KeepUp (mqssdOptions F) check fs runs) : ∃ ds, Tiers F lo hi fs.length runs ds := by
  induction h with
  | nil => exact ⟨[], trivial, rfl, rfl, by intro r hr; simp at hr⟩
  | @flush fs runs x h hp ih =>
    obtain ⟨ds, ht⟩ := ih fun y hy ↦ hfs y (List.mem_cons_of_mem x hy)
    rcases carry_cases ht.carry with hd | ⟨j, rest, rfl, hr⟩
    · exact ⟨addOne ds, ht.flush hs hd (hfs x List.mem_cons_self)⟩
    · rw [(ht.pick_carry check hs hr).1] at hp
      cases hp
  | @compact fs runs c h hp ih =>
    obtain ⟨ds, ht⟩ := ih hfs
    rcases carry_cases ht.carry with hd | ⟨j, rest, rfl, hr⟩
    · rw [ht.pick_none check hs hd] at hp
      cases hp
    · obtain ⟨hp', -, ht'⟩ := ht.pick_carry check hs hr
      obtain rfl := Option.some.inj (hp'.symm.trans hp)
      exact ⟨_, by simpa [applyCompaction] using ht'⟩

/-- After finitely many compactions nothing is left to pick. -/
theorem KeepUp.settles (hs : Spread F lo hi) {fs : List ℕ} (hfs : ∀ x ∈ fs, lo ≤ x ∧ x ≤ hi)
    (h : KeepUp (mqssdOptions F) check fs runs) :
    ∃ runs', KeepUp (mqssdOptions F) check fs runs' ∧
      pick (mqssdOptions F) check runs' = none := by
  induction hn : runs.length using Nat.strong_induction_on generalizing runs with
  | _ n ih =>
    obtain ⟨ds, ht⟩ := h.tiers hs hfs
    rcases carry_cases ht.carry with hd | ⟨j, rest, rfl, hr⟩
    · exact ⟨runs, h, ht.pick_none check hs hd⟩
    · obtain ⟨hp, htake, -⟩ := ht.pick_carry check hs hr
      have hF := hs.fanout
      have hlen : F ≤ runs.length := by
        have hl := congrArg List.length htake
        simp only [List.length_map, List.length_take, List.length_replicate] at hl
        omega
      refine ih _ ?_ (h.compact hp) rfl
      simp only [applyCompaction, List.take_zero, List.drop_zero, List.nil_append,
        List.length_cons, List.length_drop]
      omega

theorem keepUp_exists (hs : Spread F lo hi) (fs : List ℕ) (hfs : ∀ x ∈ fs, lo ≤ x ∧ x ≤ hi) :
    ∃ runs, KeepUp (mqssdOptions F) check fs runs ∧
      pick (mqssdOptions F) check runs = none := by
  induction fs with
  | nil => exact KeepUp.nil.settles hs hfs
  | cons x fs ih =>
    obtain ⟨runs, h, hp⟩ := ih fun y hy ↦ hfs y (List.mem_cons_of_mem x hy)
    exact (h.flush x hp).settles hs hfs

/-- Sizes within one percent of each other keep every fanout up to 50 apart. -/
theorem spread_of_percent (hF : 2 ≤ F) (hF' : F ≤ 50) (hlo : 0 < lo)
    (hnear : 100 * hi ≤ 101 * lo) : Spread F lo hi := by
  obtain ⟨k, rfl⟩ : ∃ k, F = k + 1 := ⟨F - 1, by omega⟩
  have h := Nat.mul_le_mul_left (101 * k) hnear
  have hk : 201 * k ≤ 201 * 49 := Nat.mul_le_mul_left 201 (by omega)
  refine ⟨hF, hlo, hnear, ?_⟩
  rw [Nat.add_sub_cancel]
  nlinarith

/-- The tiering of the header comment, for every fanout up to 50: between flushes the
runs are the base-`F` digits of the number of flushes, each compaction merges `F` runs
of equally many flushes, and the size-amplification rule never fires. -/
theorem keepUp_tiering (check : OverlapCheck) (hF : 2 ≤ F) (hF' : F ≤ 50) (s : ℚ) (hs : 0 < s)
    (fs : List ℕ) (hfs : ∀ x ∈ fs, s ≤ x ∧ (x : ℚ) ≤ 101 / 100 * s) :
    (∃ runs, KeepUp (mqssdOptions F) check fs runs ∧
      pick (mqssdOptions F) check runs = none) ∧
    ∀ runs, KeepUp (mqssdOptions F) check fs runs →
      (pick (mqssdOptions F) check runs = none →
        runs.map flushCount = tierCounts F 0 (Nat.digits F fs.length)) ∧
      (∀ c, pick (mqssdOptions F) check runs = some c → c.count = F ∧
        ∃ m, ((runs.drop c.startIndex).take c.count).map flushCount = List.replicate F m) ∧
      pickCompactionToReduceSizeAmp (mqssdOptions F) check (runs.map Run.toSortedRun) = none := by
  have hceil : s ≤ (⌈s⌉₊ : ℚ) := Nat.le_ceil s
  have hfloor : (⌊101 / 100 * s⌋₊ : ℚ) ≤ 101 / 100 * s := Nat.floor_le (by positivity)
  have hnear : 100 * ⌊101 / 100 * s⌋₊ ≤ 101 * ⌈s⌉₊ := by
    have h : (100 : ℚ) * ⌊101 / 100 * s⌋₊ ≤ 101 * ⌈s⌉₊ := by linarith
    exact_mod_cast h
  have hspread := spread_of_percent hF hF' (Nat.ceil_pos.mpr hs) hnear
  have hbound : ∀ x ∈ fs, ⌈s⌉₊ ≤ x ∧ x ≤ ⌊101 / 100 * s⌋₊ := fun x hx ↦
    ⟨Nat.ceil_le.mpr (hfs x hx).1, Nat.le_floor (hfs x hx).2⟩
  refine ⟨keepUp_exists hspread fs hbound, fun runs h ↦ ?_⟩
  obtain ⟨ds, ht⟩ := h.tiers hspread hbound
  refine ⟨fun hp ↦ ?_, fun c hc ↦ ?_, ht.sizeAmp check hspread⟩
  · rcases carry_cases ht.carry with hd | ⟨j, rest, rfl, hr⟩
    · rw [ht.counts, ← ht.value, tierCounts_digits hF 0 hd]
    · rw [(ht.pick_carry check hspread hr).1] at hp
      cases hp
  · rcases carry_cases ht.carry with hd | ⟨j, rest, rfl, hr⟩
    · rw [ht.pick_none check hspread hd] at hc
      cases hc
    · obtain ⟨hp, htake, -⟩ := ht.pick_carry check hspread hr
      obtain rfl := Option.some.inj (hp.symm.trans hc)
      exact ⟨rfl, F ^ j, by simpa using htake⟩

/-- With no compaction in progress nothing overlaps. -/
def noOverlap : OverlapCheck := ⟨fun _ _ _ ↦ false, fun _ _ _ _ ↦ rfl⟩

theorem keepUp_tiering_five : ∃ runs, KeepUp (mqssdOptions 4) noOverlap [1, 1, 1, 1, 1] runs ∧
    runs.map flushCount = [1, 4] := by
  have h := keepUp_tiering (F := 4) noOverlap (by omega) (by omega) 1 (by norm_num)
    [1, 1, 1, 1, 1] (by norm_num)
  obtain ⟨runs, hr, hp⟩ := h.1
  refine ⟨runs, hr, ((h.2 runs hr).1 hp).trans ?_⟩
  norm_num [tierCounts]

end MqssdModel.Tiering.Counting
