import Mathlib.Logic.Function.Iterate
import MqssdModel.Tiering.Counting

namespace MqssdModel.Tiering.AgeOrder

open Picker Schedule Window Counting

/-- No run is older than a strictly larger run. -/
def AgeOrdered (runs : List Run) : Prop := (runs.map Run.size).Pairwise (· ≤ ·)

/-- Flushes of one size, each completing only when nothing is running and there is
nothing left to pick. -/
def KeepsUp (F s : ℕ) (check : OverlapCheck) (runs : List Run) (x : ℕ) : Prop :=
  x = s ∧ Idle runs ∧ pick (mqssdOptions F) check runs = none

instance decidableExtends : (n total : ℕ) → (xs : List ℕ) → Decidable (Extends n total xs)
  | 0, _, _ => isTrue trivial
  | _ + 1, _, [] => isFalse id
  | n + 1, total, x :: xs =>
    have := decidableExtends n (total + x) xs
    inferInstanceAs (Decidable (100 * x ≤ 101 * total ∧ Extends n (total + x) xs))

instance decidableMergeable (F : ℕ) : (xs : List ℕ) → Decidable (Mergeable F xs)
  | [] => isFalse id
  | x :: xs => decidableExtends (F - 1) x xs

/-- What the sizes become when the newest window is merged if it can be, and a flush
completes otherwise. -/
def advance (F s : ℕ) (sizes : List ℕ) : List ℕ :=
  if Mergeable F sizes then (sizes.take F).sum :: sizes.drop F else s :: sizes

def sizesAfter (F s k : ℕ) : List ℕ := (advance F s)^[k] []

variable {F s : ℕ}

theorem advance_merge {xs : List ℕ} (h : Mergeable F xs) :
    advance F s xs = (xs.take F).sum :: xs.drop F := if_pos h

theorem advance_flush {xs : List ℕ} (h : ¬ Mergeable F xs) : advance F s xs = s :: xs := if_neg h

theorem sizesAfter_succ (k : ℕ) :
    sizesAfter F s (k + 1) = advance F s (sizesAfter F s k) :=
  Function.iterate_succ_apply' (advance F s) k []

theorem sizesAfter_one : sizesAfter F s 1 = [s] := rfl

theorem advance_ne_nil (xs : List ℕ) : advance F s xs ≠ [] := by
  unfold advance
  split_ifs <;> simp

theorem sizesAfter_eq_nil {k : ℕ} : sizesAfter F s k = [] ↔ k = 0 := by
  cases k with
  | zero => exact iff_of_true rfl rfl
  | succ k =>
    rw [sizesAfter_succ]
    exact iff_of_false (advance_ne_nil _) (Nat.succ_ne_zero k)

/-- Unless the window reaches into it, the older part does not take part. -/
theorem advance_append (hF : 0 < F) (xs ys : List ℕ)
    (h : Mergeable F (xs ++ ys) → F ≤ xs.length) :
    advance F s (xs ++ ys) = advance F s xs ++ ys := by
  by_cases hm : Mergeable F (xs ++ ys)
  · have hlen := h hm
    rw [advance_merge hm, advance_merge ((mergeable_append ys hF hlen).mp hm),
      List.take_append_of_le_length hlen, List.drop_append_of_le_length hlen, List.cons_append]
  · have hx : ¬ Mergeable F xs := fun hx ↦ hm ((mergeable_append ys hF hx.length_le).mpr hx)
    rw [advance_flush hm, advance_flush hx, List.cons_append]

/-- Every older part of a state was itself a state, and what happened since then on top of
it is what happens from the start. -/
theorem history (hF : 0 < F) (k : ℕ) (newer older : List ℕ)
    (h : sizesAfter F s k = newer ++ older) :
    ∃ v ≤ k, newer = sizesAfter F s v ∧
      ∀ i ≤ v, sizesAfter F s (k - v + i) = sizesAfter F s i ++ older := by
  induction k generalizing newer with
  | zero =>
    obtain ⟨rfl, rfl⟩ := List.append_eq_nil_iff.mp h.symm
    exact ⟨0, le_rfl, rfl, fun i hi ↦ by rw [Nat.le_zero.mp hi]; rfl⟩
  | succ k ih =>
    cases newer with
    | nil => exact ⟨0, Nat.zero_le _, rfl, fun i hi ↦ by rw [Nat.le_zero.mp hi]; exact h⟩
    | cons x newer =>
      -- the newer part one step earlier
      obtain ⟨before, hb, hadv⟩ : ∃ before, sizesAfter F s k = before ++ older ∧
          advance F s before = x :: newer := by
        rw [sizesAfter_succ] at h
        by_cases hm : Mergeable F (sizesAfter F s k)
        · rw [advance_merge hm, List.cons_append, List.cons.injEq] at h
          refine ⟨(sizesAfter F s k).take F ++ newer, ?_, ?_⟩
          · rw [List.append_assoc, ← h.2, List.take_append_drop]
          · have hlen : ((sizesAfter F s k).take F).length = F := by
              rw [List.length_take, Nat.min_eq_left hm.length_le]
            have hm' : Mergeable F ((sizesAfter F s k).take F ++ newer) := by
              rw [mergeable_append newer hF hlen.ge]
              rw [← List.take_append_drop F (sizesAfter F s k)] at hm
              exact (mergeable_append _ hF hlen.ge).mp hm
            rw [advance_merge hm', List.take_left' hlen, List.drop_left' hlen, h.1]
        · rw [advance_flush hm, List.cons_append, List.cons.injEq] at h
          refine ⟨newer, h.2, ?_⟩
          have hm' : ¬ Mergeable F newer := fun hn ↦ hm (by
            rw [h.2]
            exact (mergeable_append older hF hn.length_le).mpr hn)
          rw [advance_flush hm', h.1]
      obtain ⟨v, hv, rfl, hi⟩ := ih before hb
      have hnow : x :: newer = sizesAfter F s (v + 1) := by rw [sizesAfter_succ, hadv]
      refine ⟨v + 1, by omega, hnow, fun i hle ↦ ?_⟩
      rcases Nat.lt_or_ge v i with hlt | hge
      · obtain rfl : i = v + 1 := by omega
        rw [← hnow, ← h, Nat.sub_add_cancel (by omega)]
      · rw [Nat.add_sub_add_right]
        exact hi i hge

theorem older_reached (hF : 0 < F) {k : ℕ} {newer older : List ℕ}
    (h : sizesAfter F s k = newer ++ older) : ∃ p ≤ k, sizesAfter F s p = older := by
  obtain ⟨v, -, -, hi⟩ := history hF k newer older h
  exact ⟨k - v, by omega, by simpa [sizesAfter] using hi 0 (Nat.zero_le v)⟩

/-- Every window that starts behind the newest run is past merging. -/
theorem not_mergeable_older (hF : 0 < F) {k : ℕ} {newer older : List ℕ} (hne : newer ≠ [])
    (h : sizesAfter F s k = newer ++ older) : ¬ Mergeable F older := by
  intro hm
  have hlen := hm.length_le
  obtain ⟨v, -, rfl, hi⟩ := history hF k newer older h
  have hv : v ≠ 0 := fun h0 ↦ hne (sizesAfter_eq_nil.mpr h0)
  have h₀ : sizesAfter F s (k - v) = older := hi 0 (Nat.zero_le v)
  have h₁ := congrArg List.length (hi 1 (by omega))
  rw [sizesAfter_succ, h₀, advance_merge hm, sizesAfter_one] at h₁
  simp only [List.length_cons, List.length_drop, List.length_append, List.length_nil] at h₁
  omega

theorem sum_advance (xs : List ℕ) : xs.sum ≤ (advance F s xs).sum := by
  unfold advance
  split_ifs
  · rw [List.sum_cons, List.sum_take_add_sum_drop]
  · rw [List.sum_cons]
    omega

theorem sum_sizesAfter_mono {j k : ℕ} (h : j ≤ k) :
    (sizesAfter F s j).sum ≤ (sizesAfter F s k).sum := by
  induction k, h using Nat.le_induction with
  | base => exact le_rfl
  | succ k _ ih =>
    rw [sizesAfter_succ]
    exact ih.trans (sum_advance _)

/-- No run is smaller than a flush. -/
theorem le_of_mem_sizesAfter (hF : 0 < F) {k x : ℕ} (h : x ∈ sizesAfter F s k) : s ≤ x := by
  obtain ⟨newer, older, he⟩ := List.append_of_mem h
  have he' : sizesAfter F s k = (newer ++ [x]) ++ older := by simp [he]
  obtain ⟨q, -, hq, -⟩ := history hF k _ _ he'
  obtain ⟨p, -, hp⟩ := older_reached hF hq.symm
  have hpos : 1 ≤ p := by
    by_contra h0
    obtain rfl : p = 0 := by omega
    cases hp
  have hmono := sum_sizesAfter_mono (F := F) (s := s) hpos
  rw [sizesAfter_one, hp] at hmono
  simpa using hmono

/-- As long as nothing merges `older`, the states over it go through those from the start. -/
theorem first_reach (hF : 0 < F) {p n : ℕ} {older : List ℕ}
    (h₀ : sizesAfter F s p = older) (hn : sizesAfter F s (p + n) ≠ sizesAfter F s n ++ older) :
    ∃ i < n, Mergeable F (sizesAfter F s i ++ older) ∧ (sizesAfter F s i).length < F := by
  induction n with
  | zero => exact absurd h₀ hn
  | succ n ih =>
    by_cases hs : sizesAfter F s (p + n) = sizesAfter F s n ++ older
    · refine ⟨n, Nat.lt_succ_self n, ?_⟩
      by_contra hc
      refine hn ?_
      rw [← Nat.add_assoc, sizesAfter_succ, hs, sizesAfter_succ]
      exact advance_append hF _ _ fun hm ↦ Nat.le_of_not_lt fun hlt ↦ hc ⟨hm, hlt⟩
    · obtain ⟨i, hi, h⟩ := ih hs
      exact ⟨i, by omega, h⟩

/-- The window merged is never larger than the run behind it. -/
theorem sum_window_le (hF : 0 < F) {k c : ℕ} {window older : List ℕ}
    (h : sizesAfter F s k = window ++ c :: older) (hlen : window.length = F)
    (hm : Mergeable F window) : window.sum ≤ c := by
  obtain ⟨w, hwk, rfl, hw⟩ := history hF k window (c :: older) h
  obtain ⟨q, hqk, hq, -⟩ := history hF (k - w) [c] older (hw 0 (Nat.zero_le w))
  by_contra hlt
  have htotal : sizesAfter F s (w + 1) = [(sizesAfter F s w).sum] := by
    rw [sizesAfter_succ, advance_merge hm, List.take_of_length_le hlen.le,
      List.drop_of_length_le hlen.le]
  have hqw : q ≤ w := by
    by_contra hc
    have hmono := sum_sizesAfter_mono (F := F) (s := s) (show w + 1 ≤ q by omega)
    rw [htotal, ← hq] at hmono
    simp only [List.sum_singleton] at hmono
    omega
  obtain ⟨i, hi, hmi, hshort⟩ := first_reach (n := w + 1 - q) hF hq.symm (by
    rw [show q + (w + 1 - q) = w + 1 by omega, htotal]
    intro he
    have hl := congrArg List.length he
    simp only [List.length_append, List.length_singleton] at hl
    rw [List.eq_nil_of_length_eq_zero (by omega : (sizesAfter F s (w + 1 - q)).length = 0),
      List.nil_append, List.cons.injEq] at he
    omega)
  -- the same window reached `c` when the runs behind it were there
  have hlen' := hmi.length_le
  rw [List.length_append, List.length_singleton] at hlen'
  have hreach : Mergeable F (sizesAfter F s i ++ c :: older) := by
    rw [← List.singleton_append, ← List.append_assoc]
    exact (mergeable_append older hF (by simp; omega)).mpr hmi
  rcases Nat.lt_or_ge i w with hiw | hiw
  · have hnext := congrArg List.length (hw (i + 1) hiw)
    rw [← Nat.add_assoc, sizesAfter_succ, hw i hiw.le, advance_merge hreach] at hnext
    have hne : 0 < (sizesAfter F s (i + 1)).length := by
      rw [List.length_pos_iff, Ne, sizesAfter_eq_nil]
      omega
    simp only [List.length_cons, List.length_drop, List.length_append] at hnext
    omega
  · obtain rfl : i = w := by omega
    omega

theorem sorted_sizesAfter (hF : 0 < F) (k : ℕ) : (sizesAfter F s k).Pairwise (· ≤ ·) := by
  induction k with
  | zero => exact List.Pairwise.nil
  | succ k ih =>
    rw [sizesAfter_succ]
    by_cases hm : Mergeable F (sizesAfter F s k)
    · have hlen : ((sizesAfter F s k).take F).length = F := by
        rw [List.length_take, Nat.min_eq_left hm.length_le]
      have hsplit := (List.take_append_drop F (sizesAfter F s k)).symm
      have hold := ih.sublist (List.drop_sublist F _)
      rw [advance_merge hm]
      cases hd : (sizesAfter F s k).drop F with
      | nil => exact List.pairwise_singleton _ _
      | cons c older =>
        rw [hd] at hsplit hold
        have hmw : Mergeable F ((sizesAfter F s k).take F) := by
          rw [hsplit] at hm
          exact (mergeable_append _ hF hlen.ge).mp hm
        have hle := sum_window_le hF hsplit hlen hmw
        refine List.Pairwise.cons (fun y hy ↦ ?_) hold
        rcases List.mem_cons.mp hy with rfl | hy
        · exact hle
        · exact hle.trans (List.rel_of_pairwise_cons hold hy)
    · rw [advance_flush hm]
      exact List.Pairwise.cons (fun y hy ↦ le_of_mem_sizesAfter hF hy) ih

/-- Over the oldest run lies less than `F` times its size: with that much written on top,
`F` runs of its size would have been merged before. -/
theorem sum_newer_lt (hF : 2 ≤ F) (hs : 0 < s) {k b : ℕ} {newer : List ℕ}
    (h : sizesAfter F s k = newer ++ [b]) : newer.sum < F * b := by
  have hmem : b ∈ sizesAfter F s k := by simp [h]
  have hb : 0 < b := lt_of_lt_of_le hs (le_of_mem_sizesAfter (by omega) hmem)
  obtain ⟨u, -, rfl, hu⟩ := history (by omega) k newer [b] h
  generalize k - u = p at hu
  by_contra hc
  have hcopies : ∀ j ≤ F, (∀ i < j, p * i < u) → sizesAfter F s (p * j) = List.replicate j b := by
    intro j
    induction j with
    | zero => exact fun _ _ ↦ rfl
    | succ j ih =>
      intro hj hlt
      have hprev := ih (by omega) fun i hi ↦ hlt i (by omega)
      rw [Nat.mul_succ, Nat.add_comm, hu _ (hlt j (by omega)).le, hprev,
        List.replicate_succ']
  have hroom : ∀ j < F, p * j < u := by
    intro j
    induction j using Nat.strong_induction_on with
    | _ j ih =>
      intro hj
      have hcopy := hcopies j hj.le fun i hi ↦ ih i hi (by omega)
      by_contra hge
      have hmono := sum_sizesAfter_mono (F := F) (s := s) (Nat.le_of_not_lt hge)
      rw [hcopy, List.sum_replicate, nsmul_eq_mul, Nat.cast_id] at hmono
      have hlt : j * b < F * b := Nat.mul_lt_mul_of_pos_right hj hb
      omega
  have hfull := hcopies F le_rfl hroom
  have hm : Mergeable F (List.replicate F b) := by
    obtain ⟨n, rfl⟩ : ∃ n, F = n + 1 := ⟨F - 1, by omega⟩
    exact extends_of_near (by simp) le_rfl fun x hx ↦ by
      rw [List.eq_of_mem_replicate hx]
      omega
  have hlast := hroom (F - 1) (by omega)
  have hnext := congrArg List.length (hu (p * (F - 1) + 1) hlast)
  have heq : p + (p * (F - 1) + 1) = p * F + 1 := by
    obtain ⟨n, rfl⟩ : ∃ n, F = n + 1 := ⟨F - 1, by omega⟩
    rw [Nat.add_sub_cancel, Nat.mul_succ]
    omega
  have hne : 0 < (sizesAfter F s (p * (F - 1) + 1)).length := by
    rw [List.length_pos_iff, Ne, sizesAfter_eq_nil]
    omega
  rw [heq, sizesAfter_succ, hfull, advance_merge hm] at hnext
  simp only [List.length_cons, List.length_drop, List.length_replicate, List.length_append,
    List.length_nil] at hnext
  omega

/-- Between two steps either nothing is running, or one compaction of the newest window. -/
inductive Paced (F s : ℕ) (runs : List Run) : Prop
  | idle (k : ℕ) (hi : Idle runs) (hsizes : runs.map Run.size = sizesAfter F s k)
  | busy (k : ℕ) {window older : List Run} (job : ℕ) (he : runs = window ++ older)
      (hwindow : ∀ r ∈ window, r.job = some job) (hi : Idle older) (hlen : window.length = F)
      (hsizes : runs.map Run.size = sizesAfter F s k) (hm : Mergeable F (runs.map Run.size))

theorem Paced.sizes {runs : List Run} (h : Paced F s runs) :
    ∃ k, runs.map Run.size = sizesAfter F s k := by
  cases h with
  | idle k _ hsizes => exact ⟨k, hsizes⟩
  | busy k _ _ _ _ _ hsizes => exact ⟨k, hsizes⟩

variable {check : OverlapCheck}

theorem pick_idle_none (hF : 2 ≤ F) (hs : 0 < s) {runs : List Run} {k : ℕ} (hi : Idle runs)
    (hsizes : runs.map Run.size = sizesAfter F s k) (hm : ¬ Mergeable F (runs.map Run.size)) :
    pick (mqssdOptions F) check runs = none := by
  have hp : pick (mqssdOptions F) check ([] ++ runs) = none := by
    refine pick_none check hF (by simp) hi (fun newer older he hmo ↦ ?_) fun newer base he ↦
      sum_newer_lt hF hs (hsizes.symm.trans he)
    cases newer with
    | nil => exact hm (by rwa [he])
    | cons x newer =>
      exact not_mergeable_older (by omega) (List.cons_ne_nil x newer) (hsizes.symm.trans he) hmo
  exact hp

theorem pick_busy_none (hF : 2 ≤ F) (hs : 0 < s) {window older : List Run} {k job : ℕ}
    (hwindow : ∀ r ∈ window, r.job = some job) (hne : window ≠ []) (hi : Idle older)
    (hsizes : (window ++ older).map Run.size = sizesAfter F s k) :
    pick (mqssdOptions F) check (window ++ older) = none := by
  rw [List.map_append] at hsizes
  refine pick_none check hF (fun r hr ↦ by simp [hwindow r hr]) hi (fun newer rest he ↦ ?_)
    fun newer base he ↦ ?_
  · rw [he, ← List.append_assoc] at hsizes
    exact not_mergeable_older (by omega) (by simp [hne]) hsizes.symm
  · rw [he, ← List.append_assoc] at hsizes
    have h := sum_newer_lt hF hs hsizes.symm
    rw [List.sum_append] at h
    omega

/-- A completion can only be that of the running window. -/
theorem complete_window {window older newer inputs rest : List Run} {job job' : ℕ}
    (hwindow : ∀ r ∈ window, r.job = some job) (hwne : window ≠ []) (hi : Idle older)
    (he : window ++ older = newer ++ inputs ++ rest) (hne : inputs ≠ [])
    (hin : ∀ r ∈ inputs, r.job = some job') (hout : ∀ r ∈ newer ++ rest, r.job ≠ some job') :
    newer = [] ∧ inputs = window ∧ rest = older := by
  obtain ⟨r, hr⟩ := List.exists_mem_of_ne_nil inputs hne
  obtain rfl : job = job' := by
    have hmem : r ∈ window ++ older := by rw [he]; simp [hr]
    have hjob := hin r hr
    rcases List.mem_append.mp hmem with hw | ho
    · rw [hwindow r hw] at hjob
      exact Option.some.inj hjob
    · simp [hi r ho] at hjob
  obtain rfl : newer = [] := by
    cases newer with
    | nil => rfl
    | cons x newer =>
      cases window with
      | nil => exact absurd rfl hwne
      | cons y window =>
        simp only [List.cons_append, List.cons.injEq] at he
        refine absurd ?_ (hout x (by simp))
        rw [← he.1]
        exact hwindow y List.mem_cons_self
  refine ⟨rfl, ?_⟩
  rw [List.nil_append] at he
  rcases List.append_eq_append_iff.mp he with ⟨a, rfl, rfl⟩ | ⟨a, rfl, rfl⟩
  · obtain rfl : a = [] := List.eq_nil_iff_forall_not_mem.mpr fun r hr ↦ by
      have h := hin r (List.mem_append_right _ hr)
      simp [hi r (List.mem_append_left _ hr)] at h
    simp
  · obtain rfl : a = [] := List.eq_nil_iff_forall_not_mem.mpr fun r hr ↦
      hout r (by simp [hr]) (hwindow r (List.mem_append_right _ hr))
    simp

theorem register_sizes (job : ℕ) (c : Compaction) (runs : List Run) :
    (register job c runs).map Run.size = runs.map Run.size := by
  have hsize : (Run.size ∘ fun r : Run ↦ { r with job := some job }) = Run.size := rfl
  rw [register, List.map_append, List.map_append, List.map_map, hsize, ← List.map_append,
    ← List.map_append, List.append_assoc, ← List.drop_drop, List.take_append_drop,
    List.take_append_drop]

theorem Paced.step (hF : 2 ≤ F) (hs : 0 < s) {st st' : State} (h : Paced F s st.runs)
    (hstep : Step (mqssdOptions F) check (KeepsUp F s check) st st') : Paced F s st'.runs := by
  cases hstep with
  | flush x _ hallow =>
    obtain ⟨rfl, hidle, hp⟩ := hallow
    obtain ⟨k, hsizes⟩ := h.sizes
    have hm : ¬ Mergeable F (st.runs.map Run.size) := fun hm ↦ by
      rw [pick_first check hF hidle hm fun newer base he ↦
        sum_newer_lt hF hs (hsizes.symm.trans he)] at hp
      cases hp
    refine .idle (k + 1) (fun r hr ↦ ?_) ?_
    · rcases List.mem_cons.mp hr with rfl | hr
      · rfl
      · exact hidle r hr
    · rw [sizesAfter_succ, ← hsizes, advance_flush hm]
      simp [flushRun, Run.size]
  | pick hp =>
    cases h with
    | idle k hi hsizes =>
      by_cases hm : Mergeable F (st.runs.map Run.size)
      · have hamp : ∀ newer base, st.runs.map Run.size = newer ++ [base] →
            newer.sum < F * base := fun newer base he ↦
          sum_newer_lt hF hs (hsizes.symm.trans he)
        rw [pick_first check hF hi hm hamp, Option.some.injEq] at hp
        subst hp
        have hlen := hm.length_le
        rw [List.length_map] at hlen
        refine .busy k st.nextJob rfl ?_ ?_ ?_ ?_ ?_
        · intro r hr
          simp only [List.take_zero, List.drop_zero, List.nil_append] at hr
          obtain ⟨r', -, rfl⟩ := List.mem_map.mp hr
          rfl
        · exact fun r hr ↦ hi r (List.mem_of_mem_drop hr)
        · simp [hlen]
        · rw [register_sizes, hsizes]
        · rwa [register_sizes]
      · rw [pick_idle_none hF hs hi hsizes hm] at hp
        cases hp
    | busy k job he hwindow hi hlen hsizes hm =>
      rw [he] at hp hsizes
      rw [pick_busy_none hF hs hwindow (List.length_pos_iff.mp (by omega)) hi hsizes] at hp
      cases hp
  | @complete newer inputs rest job he hne hin hout =>
    cases h with
    | idle k hi hsizes =>
      obtain ⟨r, hr⟩ := List.exists_mem_of_ne_nil inputs hne
      have hjob := hin r hr
      rw [hi r (by rw [he]; simp [hr])] at hjob
      cases hjob
    | @busy k window older job' he' hwindow hi hlen hsizes hm =>
      obtain ⟨rfl, rfl, rfl⟩ := complete_window hwindow
        (List.length_pos_iff.mp (by omega)) hi (he'.symm.trans he) hne hin hout
      refine .idle (k + 1) (fun r hr ↦ ?_) ?_
      · rcases List.mem_cons.mp hr with rfl | hr
        · rfl
        · exact hi r hr
      · have hlen' : (inputs.map Run.size).length = F := by rw [List.length_map, hlen]
        rw [sizesAfter_succ, ← hsizes, advance_merge hm, he', @List.map_append _ _ Run.size inputs rest,
          List.take_left' hlen', List.drop_left' hlen']
        simp

end MqssdModel.Tiering.AgeOrder
