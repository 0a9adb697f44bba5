import MqssdModel.Data.Blocks
import MqssdModel.Tiering.Counting

namespace MqssdModel.Tiering.Jobs

open Data.Blocks Picker Schedule Counting

/-- What is known of a compaction whatever the options are: it has two inputs at least, none of
which is an input of another one. -/
structure Picked (o : Options) (runs : List SortedRun) (c : Compaction) : Prop where
  two : 2 ≤ c.count
  bound : c.startIndex + c.count ≤ runs.length
  idle : ∀ r ∈ (runs.drop c.startIndex).take c.count, r.beingCompacted = false
  width : c.reason = .universalSizeRatio →
    max o.minMergeWidth 2 ≤ c.count ∧ c.count ≤ o.maxMergeWidth
  oldest : c.reason = .universalSizeAmplification → c.startIndex + c.count = runs.length

variable {o : Options} {check : OverlapCheck} {ratio w m loop i n c total : ℕ}
  {runs : List SortedRun} {sr : SortedRun}

section Windows

/-- The loop stops at a run, or takes it, which is not being compacted, and goes on. -/
theorem countCandidates_cons (o : Options) (ratio w c total : ℕ) (sr : SortedRun)
    (runs : List SortedRun) : countCandidates o ratio w c total (sr :: runs) = c ∨
      sr.beingCompacted = false ∧ c < w ∧ ∃ total', countCandidates o ratio w c total (sr :: runs) =
        countCandidates o ratio w (c + 1) total' runs := by
  generalize hx : countCandidates o ratio w c total (sr :: runs) = x
  rw [countCandidates] at hx
  cases hstyle : o.stopStyle with
  | similarSize =>
    rw [hstyle] at hx
    dsimp only at hx
    split_ifs at hx with hw hbusy hlarge hsmall
    · exact Or.inl hx.symm
    · exact Or.inl hx.symm
    · exact Or.inl hx.symm
    · exact Or.inr ⟨by simpa using hbusy, hw, _, hx.symm⟩
    · exact Or.inl hx.symm
  | totalSize =>
    rw [hstyle] at hx
    dsimp only at hx
    split_ifs at hx with hw hbusy hlarge
    · exact Or.inl hx.symm
    · exact Or.inl hx.symm
    · exact Or.inr ⟨by simpa using hbusy, hw, _, hx.symm⟩
    · exact Or.inl hx.symm

theorem countCandidates_window (o : Options) (ratio w c total : ℕ) (runs : List SortedRun) :
    ∃ k ≤ runs.length, countCandidates o ratio w c total runs = c + k ∧ (0 < k → c + k ≤ w) ∧
      ∀ r ∈ runs.take k, r.beingCompacted = false := by
  induction runs generalizing c total with
  | nil => exact ⟨0, le_rfl, rfl, by simp, by simp⟩
  | cons sr runs ih =>
    rcases countCandidates_cons o ratio w c total sr runs with hstop | ⟨hidle, hw, total', hgo⟩
    · exact ⟨0, Nat.zero_le _, hstop, by simp, by simp⟩
    · obtain ⟨k, hk, hcount, hle, hwindow⟩ := ih (c + 1) total'
      refine ⟨k + 1, Nat.succ_le_succ hk, by rw [hgo, hcount]; omega, fun _ ↦ ?_, ?_⟩
      · rcases Nat.eq_zero_or_pos k with rfl | hpos
        · exact hw
        · have := hle hpos
          omega
      · intro r hr
        rcases List.mem_cons.mp hr with rfl | hr
        · exact hidle
        · exact hwindow r hr

theorem findCandidates_window (h : findCandidates o ratio w m loop runs = some (i, n)) :
    loop ≤ i ∧ m ≤ n ∧ (n ≤ 1 ∨ n ≤ w) ∧ (i - loop) + n ≤ runs.length ∧
      ∀ r ∈ (runs.drop (i - loop)).take n, r.beingCompacted = false := by
  induction runs generalizing loop with
  | nil => cases h
  | cons sr runs ih =>
    have hnext : findCandidates o ratio w m (loop + 1) runs = some (i, n) →
        loop ≤ i ∧ m ≤ n ∧ (n ≤ 1 ∨ n ≤ w) ∧ (i - loop) + n ≤ (sr :: runs).length ∧
          ∀ r ∈ ((sr :: runs).drop (i - loop)).take n, r.beingCompacted = false := by
      intro hrest
      obtain ⟨hle, hm, hw, hlen, hidle⟩ := ih hrest
      obtain ⟨k, hk⟩ : ∃ k, i - loop = k + 1 := ⟨i - (loop + 1), by omega⟩
      rw [show i - (loop + 1) = k by omega] at hlen hidle
      rw [hk, List.drop_succ_cons, List.length_cons]
      exact ⟨by omega, hm, hw, by omega, hidle⟩
    rw [findCandidates] at h
    dsimp only at h
    split_ifs at h with hbusy hm
    · exact hnext h
    · obtain ⟨rfl, hn⟩ := Prod.mk.inj (Option.some.inj h)
      obtain ⟨k, hk, hcount, hle, hidle⟩ :=
        countCandidates_window o ratio w 1 sr.compensatedFileSize runs
      rw [hcount] at hn hm
      subst hn
      refine ⟨le_rfl, hm, ?_, by rw [List.length_cons]; omega, fun r hr ↦ ?_⟩
      · rcases Nat.eq_zero_or_pos k with rfl | hpos
        · exact Or.inl le_rfl
        · exact Or.inr (hle hpos)
      · rw [Nat.sub_self, List.drop_zero, Nat.add_comm, List.take_succ_cons] at hr
        rcases List.mem_cons.mp hr with rfl | hr
        · simpa using hbusy
        · exact hidle r hr
    · exact hnext h

theorem picked_sortedRuns {c : Compaction}
    (h : pickCompactionToReduceSortedRuns o check ratio none runs = some c) : Picked o runs c := by
  unfold pickCompactionToReduceSortedRuns at h
  dsimp only at h
  split at h
  · cases h
  · rename_i start count hfind
    obtain ⟨-, hm, hw, hlen, hidle⟩ := findCandidates_window hfind
    split_ifs at h with hone
    obtain rfl := Option.some.inj h
    rw [Nat.sub_zero] at hlen hidle
    refine ⟨Nat.lt_of_not_le hone, hlen, hidle, fun _ ↦ ⟨hm, ?_⟩, by simp⟩
    exact hw.resolve_left hone

theorem picked_sizeAmp {c : Compaction} (h : pickCompactionToReduceSizeAmp o check runs = some c) :
    Picked o runs c := by
  unfold pickCompactionToReduceSizeAmp at h
  split at h
  · cases h
  · rename_i base hbase
    obtain ⟨newer, rfl⟩ := List.getLast?_eq_some_iff.mp hbase
    rw [List.dropLast_concat] at h
    dsimp only at h
    split_ifs at h with hbusy hnone hany hsize
    unfold pickCompactionWithSortedRunRange at h
    split_ifs at h
    obtain rfl := Option.some.inj h
    obtain ⟨s, hs⟩ : ∃ s, s = (newer.takeWhile (·.beingCompacted)).length := ⟨_, rfl⟩
    rw [← hs] at hnone hany ⊢
    have hlt : s < newer.length := by
      by_contra hge
      exact hnone (List.drop_eq_nil_of_le (by omega))
    have hlen : (newer ++ [base]).length = newer.length + 1 := by simp
    rw [hlen]
    have hcount : s + (newer.length + 1 - 1 + 1 - s) = newer.length + 1 := by omega
    refine ⟨?_, hlen ▸ hcount.le, fun r hr ↦ ?_, by simp, fun _ ↦ hlen ▸ hcount⟩
    · change 2 ≤ newer.length + 1 - 1 + 1 - s
      omega
    have hmem := List.mem_of_mem_take hr
    rw [List.drop_append_of_le_length hlt.le] at hmem
    rcases List.mem_append.mp hmem with hr | hr
    · simp only [List.any_eq_true, not_exists, not_and, Bool.not_eq_true] at hany
      exact hany r hr
    · rw [List.mem_singleton.mp hr]
      simpa using hbusy

/-- The picker never takes a run that is being compacted. -/
theorem picked (o : Options) (check : OverlapCheck) {c : Compaction}
    (h : pickCompaction o check runs = some c) : Picked o runs c := by
  unfold pickCompaction at h
  split_ifs at h
  split at h
  · rename_i hamp
    obtain rfl := Option.some.inj h
    exact picked_sizeAmp hamp
  · exact picked_sortedRuns h

end Windows

section Invariant

/-- Whether a run is an input of the compaction `job`. -/
def isInput (job : ℕ) (r : Run) : Bool := r.job == some job

/-- The inputs of every compaction that is running stand next to each other. -/
structure Sound (st : State) : Prop where
  fresh : ∀ r ∈ st.runs, ∀ job, r.job = some job → job < st.nextJob
  block : ∀ job, Contiguous (isInput job) st.runs
  two : ∀ job, (∃ r ∈ st.runs, isInput job r = true) → 2 ≤ st.runs.countP (isInput job)

variable {allow : List Run → ℕ → Prop} {st st' : State} {job j : ℕ} {c : Compaction} {x : ℕ}
  {rs newer inputs older : List Run}

theorem isInput_iff {r : Run} : isInput job r = true ↔ r.job = some job := by simp [isInput]

theorem isInput_of_none {r : Run} (h : r.job = none) (job : ℕ) : isInput job r = false := by
  simp [isInput, h]

theorem sound_start : Sound ⟨[], 0⟩ :=
  ⟨by simp, fun _ ↦ contiguous_of_none (by simp), by simp⟩

theorem sound_flush (h : Sound st) : Sound { st with runs := flushRun x :: st.runs } := by
  have hnew : ∀ job, isInput job (flushRun x) = false := isInput_of_none rfl
  refine ⟨fun r hr job hjob ↦ ?_, fun job ↦ contiguous_cons (hnew job) (h.block job), ?_⟩
  · rcases List.mem_cons.mp hr with rfl | hr
    · cases hjob
    · exact h.fresh r hr job hjob
  · rintro job ⟨r, hr, hjob⟩
    rw [List.countP_cons_of_neg (by simp [hnew])]
    rcases List.mem_cons.mp hr with rfl | hr
    · rw [hnew] at hjob
      cases hjob
    · exact h.two job ⟨r, hr, hjob⟩

/-- What the picker and the registration do to the runs. -/
theorem register_cases (hc : Schedule.pick o check rs = some c) : ∃ newer inputs older,
    rs = newer ++ (inputs ++ older) ∧ Idle inputs ∧ 2 ≤ inputs.length ∧ ∀ job,
      register job c rs = newer ++ (inputs.map (fun r ↦ { r with job := some job }) ++ older) := by
  have hp := picked o check hc
  refine ⟨rs.take c.startIndex, (rs.drop c.startIndex).take c.count,
    rs.drop (c.startIndex + c.count), ?_, fun r hr ↦ ?_, ?_, fun job ↦ ?_⟩
  · rw [← List.drop_drop, List.take_append_drop, List.take_append_drop]
  · have hmem : r.toSortedRun ∈ ((rs.map Run.toSortedRun).drop c.startIndex).take c.count := by
      rw [← List.map_drop, ← List.map_take]
      exact List.mem_map_of_mem hr
    have hbusy : r.job.isSome = false := hp.idle _ hmem
    simpa using hbusy
  · have hbound := hp.bound
    have htwo := hp.two
    rw [List.length_map] at hbound
    rw [List.length_take, List.length_drop]
    omega
  · rw [register, List.append_assoc]

theorem sound_pick (h : Sound st) (hc : Schedule.pick o check st.runs = some c) :
    Sound ⟨register st.nextJob c st.runs, st.nextJob + 1⟩ := by
  obtain ⟨newer, inputs, older, hruns, hidle, hlen, hregister⟩ := register_cases hc
  have hreg := hregister st.nextJob
  have hold : ∀ r ∈ newer ++ older, isInput st.nextJob r = false := by
    intro r hr
    by_contra hin
    have hjob := isInput_iff.mp (by simpa using hin)
    have hmem : r ∈ st.runs := by
      rw [hruns]
      rcases List.mem_append.mp hr with hr | hr
      · exact List.mem_append_left _ hr
      · exact List.mem_append_right _ (List.mem_append_right _ hr)
    exact absurd (h.fresh r hmem _ hjob) (lt_irrefl _)
  have hnew : ∀ r ∈ inputs.map (fun r ↦ { r with job := some st.nextJob }),
      isInput st.nextJob r = true := by
    intro r hr
    obtain ⟨r', -, rfl⟩ := List.mem_map.mp hr
    exact isInput_iff.mpr rfl
  -- for another compaction nothing has changed
  have hsame : ∀ job, job ≠ st.nextJob →
      (register st.nextJob c st.runs).map (isInput job) = st.runs.map (isInput job) := by
    intro job hjob
    rw [hreg, hruns, List.map_append, List.map_append, List.map_append, List.map_append,
      List.map_map]
    congr 2
    refine List.map_congr_left fun r hr ↦ ?_
    rw [isInput_of_none (hidle r hr)]
    simp [isInput, Ne.symm hjob]
  refine ⟨fun r hr job hjob ↦ ?_, fun job ↦ ?_, fun job hin ↦ ?_⟩
  · dsimp only at hr ⊢
    rw [hreg] at hr
    rcases List.mem_append.mp hr with hr | hr
    · have := h.fresh r (by rw [hruns]; exact List.mem_append_left _ hr) job hjob
      omega
    · rcases List.mem_append.mp hr with hr | hr
      · obtain ⟨r', -, rfl⟩ := List.mem_map.mp hr
        cases hjob
        exact Nat.lt_succ_self _
      · have := h.fresh r (by
          rw [hruns]
          exact List.mem_append_right _ (List.mem_append_right _ hr)) job hjob
        omega
  · by_cases hjob : job = st.nextJob
    · subst hjob
      dsimp only
      rw [hreg]
      exact contiguous_block (fun r hr ↦ hold r (List.mem_append_left _ hr)) hnew
        fun r hr ↦ hold r (List.mem_append_right _ hr)
    · exact (h.block job).sublist (by rw [hsame job hjob])
  · by_cases hjob : job = st.nextJob
    · subst hjob
      dsimp only
      have hcount : (inputs.map (fun r ↦ { r with job := some st.nextJob })).countP
          (isInput st.nextJob) = inputs.length := by
        rw [List.countP_eq_length.mpr hnew, List.length_map]
      rw [hreg, List.countP_append, List.countP_append, hcount]
      omega
    · dsimp only at hin ⊢
      have hcount : (register st.nextJob c st.runs).countP (isInput job) =
          st.runs.countP (isInput job) := by
        have hmap : ∀ l : List Run, l.countP (isInput job) = (l.map (isInput job)).countP id :=
          fun l ↦ by rw [List.countP_map]; rfl
        rw [hmap, hsame job hjob, ← hmap]
      rw [hcount]
      refine h.two job ?_
      obtain ⟨r, hr, hin⟩ := hin
      have htrue : true ∈ (register st.nextJob c st.runs).map (isInput job) :=
        List.mem_map.mpr ⟨r, hr, hin⟩
      rw [hsame job hjob] at htrue
      exact List.mem_map.mp htrue

theorem sound_complete (h : Sound st) (hruns : st.runs = newer ++ inputs ++ older)
    (hne : inputs ≠ []) (hin : ∀ r ∈ inputs, r.job = some job)
    (hout : ∀ r ∈ newer ++ older, r.job ≠ some job) :
    Sound { st with runs := newer ++ mergeRuns inputs :: older } := by
  have hmerged : ∀ j, isInput j (mergeRuns inputs) = false := isInput_of_none rfl
  have hother : ∀ j, j ≠ job → ∀ r ∈ inputs, isInput j r = false := by
    intro j hj r hr
    simp [isInput, hin r hr, Ne.symm hj]
  -- the compaction that has completed has no inputs left
  have hnone : ∀ r ∈ newer ++ mergeRuns inputs :: older, isInput job r = false := by
    intro r hr
    rcases List.mem_append.mp hr with hr | hr
    · simpa [isInput] using hout r (List.mem_append_left _ hr)
    · rcases List.mem_cons.mp hr with rfl | hr
      · exact hmerged job
      · simpa [isInput] using hout r (List.mem_append_right _ hr)
  have hkept : ∀ r ∈ newer ++ mergeRuns inputs :: older, ∀ j, r.job = some j → r ∈ st.runs := by
    intro r hr j hj
    rw [hruns]
    rcases List.mem_append.mp hr with hr | hr
    · exact List.mem_append_left _ (List.mem_append_left _ hr)
    · rcases List.mem_cons.mp hr with rfl | hr
      · cases hj
      · exact List.mem_append_right _ hr
  refine ⟨fun r hr j hj ↦ h.fresh r (hkept r hr j hj) j hj, fun j ↦ ?_, fun j hj ↦ ?_⟩
  · by_cases hjob : j = job
    · subst hjob
      exact contiguous_of_none hnone
    · have hb := h.block j
      rw [hruns] at hb
      exact hb.replace hne (hother j hjob) (hmerged j)
  · obtain ⟨r, hr, hj⟩ := hj
    by_cases hjob : j = job
    · subst hjob
      rw [hnone r hr] at hj
      cases hj
    · have htwo := h.two j ⟨r, hkept r hr j (isInput_iff.mp hj), hj⟩
      have hzero : inputs.countP (isInput j) = 0 :=
        List.countP_eq_zero.mpr fun r hr ↦ by simp [hother j hjob r hr]
      rw [hruns, List.countP_append, List.countP_append, hzero] at htwo
      dsimp only
      rw [List.countP_append, List.countP_cons_of_neg (by simp [hmerged])]
      exact htwo

theorem sound_step (h : Sound st) (hs : Step o check allow st st') : Sound st' := by
  cases hs with
  | flush x hx ha => exact sound_flush h
  | pick hc => exact sound_pick h hc
  | complete job hruns hne hin hout => exact sound_complete h hruns hne hin hout

theorem sound_of_reachable (hr : Reachable o check allow st) : Sound st := by
  induction hr with
  | refl => exact sound_start
  | tail _ hs ih => exact sound_step ih hs

end Invariant

section Background

/-- The steps of the background threads: no flush completes. -/
def Background (o : Options) (check : OverlapCheck) : State → State → Prop :=
  Step o check fun _ _ ↦ False

/-- What is left to do: the runs count twice, those that may still be picked three times. -/
def work (runs : List Run) : ℕ := 2 * runs.length + runs.countP (·.job == none)

variable {allow : List Run → ℕ → Prop} {st st' : State} {job : ℕ}

theorem work_le (runs : List Run) : work runs ≤ 3 * runs.length := by
  have := List.countP_le_length (p := fun r : Run ↦ r.job == none) (l := runs)
  unfold work
  omega

/-- What a compaction replaces when it completes. -/
theorem Sound.two_le_length {newer inputs older : List Run} (h : Sound st)
    (hruns : st.runs = newer ++ inputs ++ older) (hjob : ∃ r ∈ st.runs, r.job = some job)
    (hin : ∀ r ∈ inputs, r.job = some job) (hout : ∀ r ∈ newer ++ older, r.job ≠ some job) :
    2 ≤ inputs.length := by
  have htwo := h.two job (by simpa only [isInput_iff] using hjob)
  have hrest : (newer ++ older).countP (isInput job) = 0 :=
    List.countP_eq_zero.mpr fun r hr ↦ isInput_iff.not.mpr (hout r hr)
  have hinputs : inputs.countP (isInput job) = inputs.length :=
    List.countP_eq_length.mpr fun r hr ↦ isInput_iff.mpr (hin r hr)
  rw [List.countP_append] at hrest
  rw [hruns, List.countP_append, List.countP_append, hinputs] at htwo
  omega

theorem Sound.inputs (h : Sound st) (hjob : ∃ r ∈ st.runs, r.job = some job) :
    ∃ newer inputs older, st.runs = newer ++ inputs ++ older ∧ 2 ≤ inputs.length ∧
      (∀ r ∈ inputs, r.job = some job) ∧ ∀ r ∈ newer ++ older, r.job ≠ some job := by
  obtain ⟨newer, inputs, older, hruns, hin, hout⟩ := (h.block job).exists_block
  have hin' : ∀ r ∈ inputs, r.job = some job := fun r hr ↦ isInput_iff.mp (hin r hr)
  have hout' : ∀ r ∈ newer ++ older, r.job ≠ some job :=
    fun r hr ↦ by simpa [isInput] using hout r hr
  exact ⟨newer, inputs, older, hruns, h.two_le_length hruns hjob hin' hout', hin', hout'⟩

theorem ne_nil_of_two_le {rs : List Run} (h : 2 ≤ rs.length) : rs ≠ [] :=
  List.ne_nil_of_length_pos (by omega)

theorem countP_idle {rs : List Run} (h : Idle rs) : rs.countP (·.job == none) = rs.length :=
  List.countP_eq_length.mpr fun r hr ↦ by simp [h r hr]

theorem countP_busy (job : ℕ) {rs : List Run} (h : ∀ r ∈ rs, r.job = some job) :
    rs.countP (·.job == none) = 0 :=
  List.countP_eq_zero.mpr fun r hr ↦ by simp [h r hr]

theorem work_pick {c : Compaction} {rs : List Run} (hc : Schedule.pick o check rs = some c) :
    work (register job c rs) < work rs := by
  obtain ⟨newer, inputs, older, hruns, hidle, hlen, hreg⟩ := register_cases hc
  have hbusy : (inputs.map fun r ↦ { r with job := some job }).countP (·.job == none) = 0 :=
    countP_busy job (by simp)
  rw [hreg, hruns]
  simp only [work, List.length_append, List.length_map, List.countP_append, hbusy,
    countP_idle hidle]
  omega

theorem work_complete {newer inputs older : List Run} (hlen : 2 ≤ inputs.length)
    (hin : ∀ r ∈ inputs, r.job = some job) :
    work (newer ++ mergeRuns inputs :: older) < work (newer ++ inputs ++ older) := by
  have hmerged : (mergeRuns inputs).job = none := rfl
  simp only [work, List.length_append, List.length_cons, List.countP_append, List.countP_cons,
    countP_busy job hin, hmerged, beq_self_eq_true, if_true]
  omega

theorem work_step (h : Sound st) (hs : Background o check st st') :
    work st'.runs < work st.runs := by
  cases hs with
  | flush x hx ha => exact ha.elim
  | pick hc => exact work_pick hc
  | complete job hruns hne hin hout =>
    obtain ⟨r, hr⟩ := List.exists_mem_of_ne_nil _ hne
    have hmem : r ∈ st.runs := by
      rw [hruns]
      exact List.mem_append_left _ (List.mem_append_right _ hr)
    have hlen := h.two_le_length hruns ⟨r, hmem, hin r hr⟩ hin hout
    rw [hruns]
    exact work_complete hlen hin

/-- Nothing is left to do exactly when no compaction is running and none is picked. -/
theorem Sound.stuck_iff (h : Sound st) : (∀ st', ¬Background o check st st') ↔
    Idle st.runs ∧ Schedule.pick o check st.runs = none := by
  constructor
  · intro hstuck
    constructor
    · intro r hr
      by_contra hbusy
      obtain ⟨job, hjob⟩ := Option.ne_none_iff_exists'.mp hbusy
      obtain ⟨newer, inputs, older, hruns, hlen, hin, hout⟩ := h.inputs ⟨r, hr, hjob⟩
      exact hstuck _ (Step.complete job hruns (ne_nil_of_two_le hlen) hin hout)
    · by_contra hsome
      obtain ⟨c, hc⟩ := Option.ne_none_iff_exists'.mp hsome
      exact hstuck _ (Step.pick hc)
  · rintro ⟨hidle, hnone⟩ st' hs
    cases hs with
    | flush x hx ha => exact ha
    | pick hc => simp [hnone] at hc
    | complete job hruns hne hin hout =>
      obtain ⟨r, hr⟩ := List.exists_mem_of_ne_nil _ hne
      have hmem : r ∈ st.runs := by
        rw [hruns]
        exact List.mem_append_left _ (List.mem_append_right _ hr)
      have hjob := hin r hr
      rw [hidle r hmem] at hjob
      cases hjob

/-- The flushes that the runs hold, newest first. -/
def contents (runs : List Run) : List ℕ := runs.flatMap Run.flushes

theorem contents_step (hs : Background o check st st') : contents st'.runs = contents st.runs := by
  cases hs with
  | flush x hx ha => exact ha.elim
  | pick hc =>
    obtain ⟨newer, inputs, older, hruns, -, -, hreg⟩ := register_cases hc
    dsimp only
    rw [hreg, hruns]
    simp only [contents, List.flatMap_append, List.flatMap_map]
  | complete job hruns hne hin hout =>
    rw [hruns]
    simp [contents, mergeRuns, List.flatMap_append]

theorem contents_of_steps {f : ℕ → State} {n : ℕ}
    (hf : ∀ i < n, Background o check (f i) (f (i + 1))) :
    contents (f n).runs = contents (f 0).runs := by
  induction n with
  | zero => rfl
  | succ n ih =>
    rw [contents_step (hf n n.lt_succ_self), ih fun i hi ↦ hf i (hi.trans n.lt_succ_self)]

theorem sound_of_steps {f : ℕ → State} {n : ℕ} (h : Sound (f 0))
    (hf : ∀ i < n, Background o check (f i) (f (i + 1))) : Sound (f n) ∧
      n + work (f n).runs ≤ work (f 0).runs := by
  induction n with
  | zero => exact ⟨h, by omega⟩
  | succ n ih =>
    obtain ⟨hn, hwork⟩ := ih fun i hi ↦ hf i (hi.trans n.lt_succ_self)
    have hs := hf n n.lt_succ_self
    have hless := work_step hn hs
    exact ⟨sound_step hn hs, by omega⟩

/-- Whatever the order of its steps is, the background work ends, after three steps a run at
most, and it does not end before every compaction has completed and the picker has nothing left
to pick. What the runs hold stays as it is. -/
theorem background_ends (hr : Reachable o check allow st) {f : ℕ → State} {n : ℕ} (h0 : f 0 = st)
    (hf : ∀ i < n, Background o check (f i) (f (i + 1))) :
    n ≤ 3 * st.runs.length ∧ contents (f n).runs = contents st.runs ∧
      ((∀ st', ¬Background o check (f n) st') ↔
        Idle (f n).runs ∧ Schedule.pick o check (f n).runs = none) := by
  subst h0
  obtain ⟨hn, hwork⟩ := sound_of_steps (sound_of_reachable hr) hf
  have hle := work_le (f 0).runs
  exact ⟨by omega, contents_of_steps hf, hn.stuck_iff⟩

/-- Two flushes that are merged, with fanout 2. -/
def pair : ℕ → State
  | 0 => ⟨[flushRun 1, flushRun 1], 0⟩
  | 1 => ⟨[⟨[1], some 0⟩, ⟨[1], some 0⟩], 1⟩
  | _ => ⟨[⟨[1, 1], none⟩], 1⟩

theorem pair_reachable : Reachable (mqssdOptions 2) noOverlap (fun _ _ ↦ True) (pair 0) :=
  (Relation.ReflTransGen.refl.tail (Step.flush 1 one_pos trivial)).tail
    (Step.flush 1 one_pos trivial)

theorem pair_steps : ∀ i < 2, Background (mqssdOptions 2) noOverlap (pair i) (pair (i + 1)) := by
  intro i hi
  have hpick : Schedule.pick (mqssdOptions 2) noOverlap (pair 0).runs =
      some ⟨0, 2, .universalSizeRatio⟩ := by decide
  have hruns : (pair 1).runs = [] ++ (pair 1).runs ++ [] := rfl
  interval_cases i
  · exact Step.pick hpick
  · exact Step.complete 0 hruns (by decide) (by decide) (by decide)

theorem background_ends_pair : Idle (pair 2).runs ∧
    Schedule.pick (mqssdOptions 2) noOverlap (pair 2).runs = none ∧
    contents (pair 2).runs = [1, 1] ∧
    ∀ st', ¬Background (mqssdOptions 2) noOverlap (pair 2) st' := by
  obtain ⟨-, hcontents, hstuck⟩ := background_ends pair_reachable rfl pair_steps
  have hidle : Idle (pair 2).runs := by
    intro r hr
    rw [List.mem_singleton.mp hr]
  have hnone : Schedule.pick (mqssdOptions 2) noOverlap (pair 2).runs = none := by decide
  exact ⟨hidle, hnone, hcontents, hstuck.mpr ⟨hidle, hnone⟩⟩

end Background

end MqssdModel.Tiering.Jobs
