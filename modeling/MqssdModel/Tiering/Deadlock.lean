import MqssdModel.Tiering.Counting

namespace MqssdModel.Tiering.Deadlock

open Picker Schedule Window Digits Counting

/-- The write controller stops writes because of the number of sorted runs. -/
def WritesStopped (o : Options) (memtables : ℤ) (bytes : ℕ) (runs : List Run) : Prop :=
  getWriteStallConditionAndCause memtables runs.length bytes o = (.stopped, .l0FileCountLimit)

/-- Whenever writes are stopped by the number of runs and nothing is running, there is
something to compact. -/
def NoWriteStallDeadlock (F : ℕ) (check : OverlapCheck) (allow : List Run → ℕ → Prop) : Prop :=
  ∀ st, Reachable (mqssdOptions F) check allow st → Idle st.runs →
    ∀ memtables bytes, WritesStopped (mqssdOptions F) memtables bytes st.runs →
      (pick (mqssdOptions F) check st.runs).isSome

/-- Flushes of one size only, and none while writes are stopped. -/
def SteadyWrites (F s : ℕ) (runs : List Run) (x : ℕ) : Prop :=
  x = s ∧ ¬ WritesStopped (mqssdOptions F) 0 0 runs

variable {F s : ℕ} {check : OverlapCheck} {allow : List Run → ℕ → Prop}

theorem writesStopped_iff (runs : List Run) :
    WritesStopped (mqssdOptions F) 0 0 runs ↔ max 36 F ≤ runs.length := by
  obtain ⟨-, -, -, -, -, hauto, hbuf⟩ := mqssd_fields F
  unfold WritesStopped getWriteStallConditionAndCause
  rw [mqssd_stop, hauto, hbuf, if_neg (by omega)]
  constructor
  · intro h
    by_contra hc
    rw [if_neg (by simp; omega)] at h
    split_ifs at h <;> simp at h
  · intro h
    rw [if_pos ⟨by simp, by omega⟩]

/-- If there is no deadlock, an idle state that picks nothing still takes writes. -/
theorem not_stopped_of_noDeadlock (hn : NoWriteStallDeadlock F check allow) {st : State}
    (hr : Reachable (mqssdOptions F) check allow st) (hi : Idle st.runs)
    (hp : pick (mqssdOptions F) check st.runs = none) :
    ¬ WritesStopped (mqssdOptions F) 0 0 st.runs := by
  intro h
  have hsome := hn st hr hi 0 0 h
  rw [hp] at hsome
  exact Bool.false_ne_true hsome

/-- The number of runs is the digit sum of the number of flushes. -/
theorem length_of_tiers (hF : 2 ≤ F) {lo hi n : ℕ} {runs : List Run} {ds : List ℕ}
    (h : Tiers F lo hi n runs ds) (hd : ∀ x ∈ ds, x < F) :
    runs.length = (Nat.digits F n).sum := by
  rw [← length_tierCounts (F := F) 0, ← h.value, tierCounts_digits hF 0 hd, ← h.counts,
    List.length_map]

/-- Carries are worked off one after the other. -/
theorem Reachable.settles {lo hi n : ℕ} (hs : Spread F lo hi) {st : State} {ds : List ℕ}
    (hr : Reachable (mqssdOptions F) check allow st) (ht : Tiers F lo hi n st.runs ds) :
    ∃ st' ds', Reachable (mqssdOptions F) check allow st' ∧ Tiers F lo hi n st'.runs ds' ∧
      ∀ x ∈ ds', x < F := by
  induction hm : st.runs.length using Nat.strong_induction_on generalizing st ds with
  | _ m ih =>
    rcases carry_cases ht.carry with hd | ⟨j, rest, rfl, hrest⟩
    · exact ⟨st, ds, hr, ht, hd⟩
    · have hF := hs.fanout
      obtain ⟨hp, htake, ht'⟩ := ht.pick_carry check hs hrest
      have hlen : F ≤ st.runs.length := by
        have hl := congrArg List.length htake
        simp only [List.length_map, List.length_take, List.length_replicate] at hl
        omega
      have hne : (st.runs.drop 0).take F ≠ [] := by
        rw [List.drop_zero]
        intro he
        rw [he] at htake
        have hl := congrArg List.length htake
        simp at hl
        omega
      have hr' := Schedule.Reachable.compact hr ht.sized.idle hp hne
      simp only [applyCompaction, List.take_zero, List.drop_zero, List.nil_append,
        Nat.zero_add] at hr'
      refine ih _ ?_ hr' ht' rfl
      simp only [List.length_cons, List.length_drop]
      omega

/-- Equal flushes reach the digit state of every number whose predecessors all let the
next flush through. -/
theorem reach_tiers (hs : Spread F s s) (n : ℕ)
    (hallow : ∀ m < n, ∀ st ds, Reachable (mqssdOptions F) check allow st →
      Tiers F s s m st.runs ds → (∀ x ∈ ds, x < F) → allow st.runs s) :
    ∃ st ds, Reachable (mqssdOptions F) check allow st ∧ Tiers F s s n st.runs ds ∧
      ∀ x ∈ ds, x < F := by
  induction n with
  | zero =>
    exact ⟨⟨[], 0⟩, [], .refl, ⟨trivial, rfl, rfl, by intro r hr; simp at hr⟩, by simp⟩
  | succ n ih =>
    obtain ⟨st, ds, hr, ht, hd⟩ := ih fun m hm ↦ hallow m (by omega)
    have hr' : Reachable (mqssdOptions F) check allow
        { st with runs := flushRun s :: st.runs } :=
      Relation.ReflTransGen.tail hr (.flush s hs.pos (hallow n (by omega) st ds hr ht hd))
    exact Reachable.settles hs hr' (ht.flush hs hd ⟨le_rfl, le_rfl⟩)

theorem spread_equal (hF : 2 ≤ F) (hF' : F ≤ 50) (hs : 0 < s) : Spread F s s :=
  spread_of_percent hF hF' hs (by omega)

/-- Small fanouts: the number whose digits are all one fills the runs one per tier. -/
theorem deadlock_of_le (hF : 2 ≤ F) (hF' : F ≤ 50) (hs : 0 < s)
    (hallow : ∀ runs x, SteadyWrites F s runs x → allow runs x) :
    ¬ NoWriteStallDeadlock F check allow := by
  intro hn
  have hspread := spread_equal hF hF' hs
  have hones : ∀ x ∈ List.replicate (max 36 F) 1, x < F := fun x hx ↦ by
    rw [List.eq_of_mem_replicate hx]
    omega
  obtain ⟨st, ds, hr, ht, hd⟩ : ∃ st ds, Reachable (mqssdOptions F) check allow st ∧
      Tiers F s s (Nat.ofDigits F (List.replicate (max 36 F) 1)) st.runs ds ∧
      ∀ x ∈ ds, x < F :=
    reach_tiers hspread _ fun m _ st ds hr ht hd ↦ hallow _ _
      ⟨rfl, not_stopped_of_noDeadlock hn hr ht.sized.idle (ht.pick_none check hspread hd)⟩
  refine not_stopped_of_noDeadlock hn hr ht.sized.idle (ht.pick_none check hspread hd) ?_
  rw [writesStopped_iff, length_of_tiers hF ht hd, ← length_tierCounts (F := F) 0,
    tierCounts_digits hF 0 hones, length_tierCounts]
  simp

/-- `m` fresh flushes on top of the runs already there. -/
def stack (s m : ℕ) (base : List Run) : List Run := List.replicate m (flushRun s) ++ base

theorem stack_sizes (m : ℕ) (base : List Run) :
    (stack s m base).map Run.size = List.replicate m s ++ base.map Run.size := by
  simp [stack, flushRun, Run.size]

theorem stack_idle (m : ℕ) {base : List Run} (hb : Idle base) : Idle (stack s m base) := by
  intro r hr
  rcases List.mem_append.mp hr with h | h
  · rw [List.eq_of_mem_replicate h]
    rfl
  · exact hb r h

theorem reach_stack (hs : 0 < s) (hallow : ∀ runs x, SteadyWrites F s runs x → allow runs x)
    {base : List Run} {job : ℕ} (hr : Reachable (mqssdOptions F) check allow ⟨base, job⟩)
    (m : ℕ) (hm : m + base.length ≤ F) :
    Reachable (mqssdOptions F) check allow ⟨stack s m base, job⟩ := by
  induction m with
  | zero => exact hr
  | succ m ih =>
    refine Relation.ReflTransGen.tail (ih (by omega)) (.flush s hs (hallow _ _ ⟨rfl, ?_⟩))
    rw [writesStopped_iff]
    simp only [stack, List.length_append, List.length_replicate]
    omega

/-- `F - 1` flushes over one run that is larger than their total by more than a
percent leave nothing to pick. -/
theorem stack_pick_none (hF : 2 ≤ F) {b : Run} (hb : b.job = none)
    (hgap : 101 * ((F - 1) * s) < 100 * b.size) :
    pick (mqssdOptions F) check (stack s (F - 1) [b]) = none := by
  have hi : Idle (stack s (F - 1) [b]) := stack_idle _ (by simpa [Idle] using hb)
  have hp : pick (mqssdOptions F) check ([] ++ stack s (F - 1) [b]) = none := by
    refine Window.pick_none check hF (by simp) hi ?_ ?_
    · intro newer older he hm
      have hlen := congrArg List.length he
      have hle := hm.length_le
      rw [stack_sizes] at hlen he
      simp only [List.length_append, List.length_replicate, List.length_map,
        List.length_singleton] at hlen
      obtain rfl : newer = [] := List.eq_nil_of_length_eq_zero (by omega)
      obtain ⟨k, hk⟩ : ∃ k, F - 1 = k + 1 := ⟨F - 2, by omega⟩
      rw [List.nil_append, hk, List.replicate_succ, List.cons_append] at he
      subst he
      refine not_extends_of_gap (by simp; omega) ?_ hm
      rw [hk, Nat.succ_mul k s, Nat.add_comm _ s] at hgap
      simpa [List.sum_replicate] using hgap
    · intro newer base he
      rw [stack_sizes] at he
      obtain ⟨rfl, hbase⟩ := List.append_inj' he rfl
      simp only [List.map_singleton, List.cons.injEq, and_true] at hbase
      subst hbase
      have hle : b.size ≤ F * b.size := Nat.le_mul_of_pos_left _ (by omega)
      rw [List.sum_replicate, nsmul_eq_mul, Nat.cast_id]
      omega
  rwa [List.nil_append] at hp

theorem extends_replicate {m total b : ℕ} (ht : s ≤ total) (hb : 100 * b ≤ 101 * (total + m * s)) :
    Extends (m + 1) total (List.replicate m s ++ [b]) := by
  induction m generalizing total with
  | zero => exact ⟨by simpa using hb, trivial⟩
  | succ m ih =>
    rw [Nat.succ_mul m s] at hb
    exact ⟨by omega, ih (by omega) (by omega)⟩

/-- A run that `F - 1` flushes do reach is merged with them. -/
theorem reach_merged (hF : 2 ≤ F) (hs : 0 < s)
    (hallow : ∀ runs x, SteadyWrites F s runs x → allow runs x) {b : Run} {job : ℕ}
    (hr : Reachable (mqssdOptions F) check allow ⟨[b], job⟩) (hb : b.job = none)
    (hsb : s ≤ b.size) (hle : 100 * b.size ≤ 101 * ((F - 1) * s)) :
    ∃ b' job', Reachable (mqssdOptions F) check allow ⟨[b'], job'⟩ ∧ b'.job = none ∧
      b'.size = (F - 1) * s + b.size := by
  have hr' := reach_stack hs hallow hr (F - 1) (by simp; omega)
  have hi : Idle (stack s (F - 1) [b]) := stack_idle _ (by simpa [Idle] using hb)
  have hlen : (stack s (F - 1) [b]).length = F := by
    simp only [stack, List.length_append, List.length_replicate, List.length_singleton]
    omega
  have htake : ((stack s (F - 1) [b]).drop 0).take F = stack s (F - 1) [b] :=
    List.take_of_length_le (by rw [List.drop_zero, hlen])
  obtain ⟨k, hk⟩ : ∃ k, F - 1 = k + 1 := ⟨F - 2, by omega⟩
  have hm : Mergeable F ((stack s (F - 1) [b]).map Run.size) := by
    rw [stack_sizes, hk, List.replicate_succ, List.cons_append]
    rw [hk, Nat.succ_mul k s, Nat.add_comm _ s] at hle
    change Extends (F - 1) s (List.replicate k s ++ [b.size])
    rw [hk]
    exact extends_replicate le_rfl hle
  have hamp : ∀ newer base, (stack s (F - 1) [b]).map Run.size = newer ++ [base] →
      newer.sum < F * base := by
    intro newer base he
    rw [stack_sizes] at he
    obtain ⟨rfl, hbase⟩ := List.append_inj' he rfl
    simp only [List.map_singleton, List.cons.injEq, and_true] at hbase
    subst hbase
    rw [List.sum_replicate, nsmul_eq_mul, Nat.cast_id]
    calc (F - 1) * s < F * s := Nat.mul_lt_mul_of_pos_right (by omega) hs
      _ ≤ F * b.size := Nat.mul_le_mul_left F hsb
  have h := Schedule.Reachable.compact hr' hi (pick_first check hF hi hm hamp)
    (by rw [htake, ← List.length_pos_iff]; omega)
  simp only [applyCompaction, List.take_zero, List.nil_append, Nat.zero_add] at h
  rw [htake, List.drop_of_length_le hlen.le] at h
  refine ⟨_, _, h, rfl, ?_⟩
  rw [mergeRuns_size, stack_sizes]
  simp

/-- Large fanouts, where the stop trigger is the fanout itself: `F - 1` flushes over the
first merged run, or over the second one, already stop the writes. -/
theorem deadlock_of_ge (hF : 36 ≤ F) (hs : 0 < s)
    (hallow : ∀ runs x, SteadyWrites F s runs x → allow runs x) :
    ¬ NoWriteStallDeadlock F check allow := by
  intro hn
  have hstuck : ∀ b job, Reachable (mqssdOptions F) check allow ⟨[b], job⟩ → b.job = none →
      ¬ 101 * ((F - 1) * s) < 100 * b.size := by
    intro b job hr hb hgap
    have hr' := reach_stack hs hallow hr (F - 1) (by simp; omega)
    refine not_stopped_of_noDeadlock hn hr' (stack_idle _ (by simpa [Idle] using hb))
      (stack_pick_none (by omega) hb hgap) ?_
    rw [writesStopped_iff]
    simp only [stack, List.length_append, List.length_replicate, List.length_singleton]
    omega
  have hone : Reachable (mqssdOptions F) check allow ⟨[flushRun s], 0⟩ :=
    reach_stack hs hallow .refl 1 (by simp; omega)
  have hle : s ≤ (F - 1) * s := Nat.le_mul_of_pos_left s (by omega)
  obtain ⟨b, job, hb, hjob, hsize⟩ := reach_merged (by omega) hs hallow hone rfl
    (by simp [flushRun, Run.size]) (by simp only [flushRun, Run.size, List.sum_singleton]; omega)
  have hsb : (flushRun s).size = s := by simp [flushRun, Run.size]
  obtain ⟨b', job', hb', hjob', hsize'⟩ := reach_merged (by omega) hs hallow hb hjob
    (by omega) (Nat.le_of_not_lt (hstuck b job hb hjob))
  exact hstuck b' job' hb' hjob' (by omega)

/-- For every fanout the fork can stop all writes with nothing left to compact, even
under flushes of one size that respect the stop. -/
theorem writeStall_deadlock (F s : ℕ) (hF : 2 ≤ F) (hs : 0 < s) (check : OverlapCheck)
    (allow : List Run → ℕ → Prop) (hallow : ∀ runs x, SteadyWrites F s runs x → allow runs x) :
    ¬ NoWriteStallDeadlock F check allow := by
  rcases Nat.le_total F 50 with h | h
  · exact deadlock_of_le hF h hs hallow
  · exact deadlock_of_ge (by omega) hs hallow

theorem writeStall_deadlock_two : ¬ NoWriteStallDeadlock 2 noOverlap (fun _ _ ↦ True) :=
  writeStall_deadlock 2 1 (by omega) (by omega) noOverlap _ (fun _ _ _ ↦ trivial)

theorem digit_sum_sixteen {ds : List ℕ} (hd : ∀ x ∈ ds, x < 16)
    (h : Nat.ofDigits 16 ds < 1791) : ds.sum < 36 := by
  match ds with
  | [] => simp
  | [a] => simp at hd; simp; omega
  | [a, b] => simp at hd; simp; omega
  | a :: b :: c :: rest =>
    have hrest := Nat.sum_le_ofDigits rest (show 1 ≤ 16 by omega)
    simp only [Nat.ofDigits_cons] at h
    simp only [List.mem_cons, forall_eq_or_imp] at hd
    simp only [List.sum_cons]
    omega

theorem sizes_of_tiers {n : ℕ} {runs : List Run} {ds : List ℕ} (h : Tiers F 1 1 n runs ds) :
    runs.map Run.size = tierCounts F 0 ds := by
  rw [← h.counts]
  refine List.map_congr_left fun r hr ↦ ?_
  have hb := size_bounds h.sized hr
  omega

/-- The hang of fanout 16: after 1791 equal flushes there are 15 runs of one flush, 15 of
sixteen and 6 of 256, which is the stop trigger, and the picker returns null. -/
theorem stuck_sixteen : ∃ st, Reachable (mqssdOptions 16) noOverlap (SteadyWrites 16 1) st ∧
    Idle st.runs ∧ st.runs.map Run.size = tierCounts 16 0 (Nat.digits 16 1791) ∧
    WritesStopped (mqssdOptions 16) 0 0 st.runs ∧
    pick (mqssdOptions 16) noOverlap st.runs = none := by
  have hspread : Spread 16 1 1 := spread_equal (by omega) (by omega) (by omega)
  obtain ⟨st, ds, hr, ht, hd⟩ : ∃ st ds,
      Reachable (mqssdOptions 16) noOverlap (SteadyWrites 16 1) st ∧
      Tiers 16 1 1 1791 st.runs ds ∧ ∀ x ∈ ds, x < 16 :=
    reach_tiers hspread 1791 fun m hm st ds hr ht hd ↦ ⟨rfl, by
      have := digit_sum_sixteen hd (by rw [ht.value]; exact hm)
      rw [writesStopped_iff, ht.length_eq]
      omega⟩
  refine ⟨st, hr, ht.sized.idle, ?_, ?_, ht.pick_none noOverlap hspread hd⟩
  · rw [sizes_of_tiers ht, ← ht.value, tierCounts_digits (by omega) 0 hd]
  · rw [writesStopped_iff, length_of_tiers (by omega) ht hd]
    norm_num

theorem not_noWriteStallDeadlock_sixteen :
    ¬ NoWriteStallDeadlock 16 noOverlap (SteadyWrites 16 1) := by
  intro h
  obtain ⟨st, hr, hi, -, hstop, hp⟩ := stuck_sixteen
  exact not_stopped_of_noDeadlock h hr hi hp hstop

end MqssdModel.Tiering.Deadlock
