import MqssdModel.Trace.Effects

namespace MqssdModel.Trace.Counter

open Data.OrderedDict Analyser Slots Effects

/-- Each value differs by one from the one before it. -/
def Walk : ℤ → List ℤ → Prop
  | _, [] => True
  | n, m :: ms => (m = n + 1 ∨ m = n - 1) ∧ Walk m ms

theorem Walk.concat {n k : ℤ} {ms : List ℤ} (h : Walk n ms)
    (hk : k = ms.getLastD n + 1 ∨ k = ms.getLastD n - 1) : Walk n (ms ++ [k]) := by
  induction ms generalizing n with
  | nil => exact ⟨hk, trivial⟩
  | cons m ms ih =>
    refine ⟨h.1, ih h.2 ?_⟩
    rwa [List.getLastD_cons] at hk

/-- The counter starts at zero, moves by one at each sample and nowhere else. -/
structure Sampled (st : State) : Prop where
  walk : Walk 0 (st.samples.map Prod.snd)
  last : st.numIos = (st.samples.map Prod.snd).getLastD 0

variable {st st' : State} {r : Record}

theorem Sampled.congr (h : Sampled st) (hs : st'.samples = st.samples)
    (hn : st'.numIos = st.numIos) : Sampled st' :=
  ⟨hs ▸ h.walk, by rw [hn, hs, h.last]⟩

theorem Sampled.sample (h : Sampled st) (t : String) {n : ℤ}
    (hn : n = st.numIos + 1 ∨ n = st.numIos - 1) (hs : st'.samples = st.samples ++ [(t, n)])
    (hn' : st'.numIos = n) : Sampled st' := by
  constructor
  · rw [hs, List.map_append, List.map_singleton]
    refine h.walk.concat ?_
    rwa [← h.last]
  · rw [hs, hn', List.map_append, List.map_singleton, List.getLastD_concat]

theorem Sampled.newIo {idx : ℕ} (h : Sampled st) (hok : newIo st idx r = .ok st') :
    Sampled st' := by
  obtain ⟨d, -, hok⟩ := bind_eq_ok.mp hok
  split_ifs at hok
  · cases hok
    exact h
  · obtain ⟨sets, -, hok⟩ := bind_eq_ok.mp hok
    cases hok
    exact h.sample r.time (.inl rfl) rfl rfl

theorem Sampled.addRequest {idx : ℕ} (h : Sampled st) (hok : addRequest st idx r = .ok st') :
    Sampled st' := by
  obtain ⟨d, -, hok⟩ := bind_eq_ok.mp hok
  obtain ⟨j, -, hok⟩ := bind_eq_ok.mp hok
  obtain ⟨sets, -, hok⟩ := bind_eq_ok.mp hok
  obtain ⟨s, -, hok⟩ := bind_eq_ok.mp hok
  split_ifs at hok
  · cases hok
  · cases hok
    exact h.congr rfl rfl

theorem Sampled.issue (h : Sampled st) (hok : issue st r = .ok st') : Sampled st' := by
  have hpid : Sampled (addPid st r.pid) := by
    unfold addPid
    split_ifs
    · exact h
    · exact h.congr rfl rfl
  obtain ⟨t, -, hok⟩ := bind_eq_ok.mp hok
  obtain ⟨st₁, hnew, hok⟩ := bind_eq_ok.mp hok
  exact (hpid.newIo hnew).addRequest hok

theorem Sampled.complete (h : Sampled st) (hok : complete st r = .ok st') : Sampled st' := by
  unfold Analyser.complete at hok
  split at hok
  · cases hok
    exact h
  · split_ifs at hok
    · cases hok
    · obtain ⟨sets, -, hok⟩ := bind_eq_ok.mp hok
      obtain ⟨s, -, hok⟩ := bind_eq_ok.mp hok
      by_cases hm : r.request ∉ s
      · rw [if_pos hm] at hok
        cases hok
      · rw [if_neg hm] at hok
        dsimp only at hok
        split_ifs at hok
        · obtain ⟨d, -, hok⟩ := bind_eq_ok.mp hok
          cases hok
          exact h.sample r.time (.inr rfl) rfl rfl
        · cases hok
          exact h.congr rfl rfl

variable {follows : String → Bool}

theorem Sampled.handle (h : Sampled st) (hok : handle follows st r = .ok st') : Sampled st' := by
  unfold Analyser.handle at hok
  split at hok
  · split_ifs at hok
    · exact h.issue hok
    · cases hok
      exact h
  · exact h.complete hok
  · cases hok
    exact h

/-- The only ways to stop early are the test of a completion's direction and the assertion. -/
theorem handle_error {e : Abort} (ha : Accounted st) (hr : r.ignored = false)
    (herr : handle follows st r = .error e) : e = .exit ∨ e = .assertionError := by
  unfold Analyser.handle at herr
  split at herr
  · split_ifs at herr
    · obtain ⟨idx, j, ⟨-, -, h⟩ | ⟨st₁, h, -⟩⟩ := issue_spec ha r
      · rw [h] at herr
        cases herr
        exact .inr rfl
      · rw [h] at herr
        cases herr
    · cases herr
  · cases hq : st.reqs.get? r.request with
    | none => simp [complete, hq, pure, Except.pure] at herr
    | some p =>
      obtain ⟨h, -⟩ | ⟨st₁, h, -⟩ := complete_spec ha hq (read_of_not_ignored hr)
      · rw [h] at herr
        cases herr
        exact .inl rfl
      · rw [h] at herr
        cases herr
  · cases herr

/-- What holds at any line: the counter and the maps agree, or the script has stopped at one of
its own tests. -/
def Safe : Except Abort State → Prop
  | .ok st => Accounted st ∧ 0 ≤ st.numIos ∧ Sampled st
  | .error e => e = .exit ∨ e = .assertionError

theorem safe_run {rs : List Record} (ha : Accounted st) (hs : Sampled st)
    (hr : ∀ r ∈ rs, r.ignored = false) : Safe (rs.foldlM (handle follows) st) := by
  induction rs generalizing st with
  | nil =>
    refine ⟨ha, ?_, hs⟩
    rw [ha.numIos]
    exact Int.natCast_nonneg _
  | cons r rs ih =>
    have hr₀ := hr r List.mem_cons_self
    rw [List.foldlM_cons]
    cases hok : handle follows st r with
    | error e => exact handle_error ha hr₀ hok
    | ok st₁ =>
      exact ih (handle_accounted ha hr₀ hok) (hs.handle hok) fun r' h ↦
        hr r' (List.mem_cons_of_mem r h)

theorem safe_analyse (lines : List Line) : Safe (analyse follows start lines) := by
  rw [analyse_eq]
  exact safe_run accounted_start ⟨trivial, rfl⟩ fun r h ↦ not_ignored_of_mem h

/-- After any number of lines of any trace, for both scripts: the counter is the number of
IOs with an outstanding request and never negative, every entry of the request map and of the
address maps leads to such an IO, no two addresses of a thread and direction to the same one, and
the counter moves by one at each sample. A missing key or index never stops the script. -/
theorem counter_safe (lines : List Line) (n : ℕ) :
    Safe (parseTrace (lines.take n)) ∧ Safe (parseLog (lines.take n)) :=
  ⟨safe_analyse _, safe_analyse _⟩

end MqssdModel.Trace.Counter
