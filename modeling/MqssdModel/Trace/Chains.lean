import MqssdModel.Trace.Coalescing

namespace MqssdModel.Trace.Chains

open Data.OrderedDict Analyser Slots Effects Coalescing

/-- The requests issued so far, in order, each as its line and with the IO that it went to. -/
abbrev Journal := List ((ℕ × ℕ) × Record)

/-- The lines whose requests went to one IO. -/
def assigned (journal : Journal) (io : ℕ × ℕ) : List Record :=
  (journal.filter fun e ↦ e.1 = io).map Prod.snd

section Journaling

variable (follows : String → Bool)

def enter (st : State) (journal : Journal) (r : Record) : Journal :=
  if r.event = .issued ∧ follows r.name = true then
    match st.reqs.get? r.request with
    | some io => journal ++ [(io, r)]
    | none => journal
  else journal

/-- A step of the script that also keeps the journal. -/
def journalStep (p : State × Journal) (r : Record) : Except Abort (State × Journal) := do
  let st ← handle follows p.1 r
  return (st, enter follows st p.2 r)

def journaled (rs : List Record) : Except Abort (State × Journal) :=
  rs.foldlM (journalStep follows) (start, [])

end Journaling

/-- The requests of every IO are of one thread and direction and each starts where the one before it
ends; the entry of the IO in the address map, if it has one, is the end of the last of them. -/
structure Contiguous (st : State) (journal : Journal) : Prop where
  chain : ∀ io, (assigned journal io).IsChain fun r r' ↦ r'.startAddr = r.startAddr + r.offset
  owner : ∀ io, ∀ r ∈ assigned journal io, ∀ r' ∈ assigned journal io,
    r.pid = r'.pid ∧ r.write = r'.write
  ends : ∀ i a k, last st i a = some k →
    ∃ r, (assigned journal (i, k)).getLast? = some r ∧ r.startAddr + r.offset = a

/-- The number of IOs that a thread and direction has had. -/
def opened (st : State) (i : ℕ) : ℕ := ((st.ios[i]?).map List.length).getD 0

/-- The journal as a log without the threads, the newest first. -/
def toLog (journal : Journal) : Log := (journal.map fun e ↦ (e.1, e.2.request)).reverse

variable {follows : String → Bool} {st st' : State} {journal : Journal} {r : Record} {idx j : ℕ}

section Lists

theorem assigned_concat (io io' : ℕ × ℕ) : assigned (journal ++ [(io, r)]) io' =
    if io = io' then assigned journal io' ++ [r] else assigned journal io' := by
  unfold assigned
  by_cases h : io = io'
  · simp [h]
  · simp [h]

theorem toLog_concat (io : ℕ × ℕ) : toLog (journal ++ [(io, r)]) = (io, r.request) :: toLog journal := by
  simp [toLog]

theorem latest_toLog (io : ℕ × ℕ) :
    latest (toLog journal) io = (assigned journal io).getLast?.map Record.request := by
  induction journal using List.reverseRecOn with
  | nil => rfl
  | append_singleton journal e ih =>
    obtain ⟨io', r⟩ := e
    rw [toLog_concat, latest_cons, assigned_concat, ih]
    by_cases h : io' = io
    · rw [if_pos h, if_pos h, List.getLast?_concat, Option.map_some]
    · rw [if_neg h, if_neg h]

end Lists

section Opening

theorem opened_eq {sets : List (Finset Request)} (h : st.ios[idx]? = some sets) :
    opened st idx = sets.length := by
  rw [opened, h, Option.map_some, Option.getD_some]

theorem opened_set {sets sets' : List (Finset Request)} (h : st.ios[idx]? = some sets)
    (hios : st'.ios = st.ios.set idx sets') (i : ℕ) :
    opened st' i = if i = idx then sets'.length else opened st i := by
  obtain ⟨hlt, -⟩ := List.getElem?_eq_some_iff.mp h
  unfold opened
  rw [hios]
  by_cases hi : i = idx
  · subst hi
    rw [List.getElem?_set_self hlt, if_pos rfl, Option.map_some, Option.getD_some]
  · rw [List.getElem?_set_ne fun he ↦ hi he.symm, if_neg hi]

/-- Another set in the place of one does not change the number. -/
theorem opened_replace {sets : List (Finset Request)} {s : Finset Request}
    (h : st.ios[idx]? = some sets) (hios : st'.ios = st.ios.set idx (sets.set j s)) (i : ℕ) :
    opened st' i = opened st i := by
  rw [opened_set h hios]
  split_ifs with hi
  · rw [hi, opened_eq h, List.length_set]
  · rfl

theorem opened_addPid (p : ℤ) (i : ℕ) : opened (addPid st p) i = opened st i := by
  unfold addPid
  split_ifs
  · rfl
  · unfold opened
    rcases Nat.lt_or_ge i st.ios.length with h | h
    · rw [List.getElem?_append_left h]
    · rw [List.getElem?_append_right h, List.getElem?_eq_none h]
      rcases i - st.ios.length with _ | _ | j
      · rfl
      · rfl
      · rfl

theorem item_eq_ok {α : Type*} {xs : List α} {i : ℕ} {x : α} (h : item xs i = .ok x) :
    xs[i]? = some x := by
  unfold item at h
  split at h
  · cases h
    assumption
  · cases h

theorem key_eq_ok {κ ν : Type*} [DecidableEq κ] {d : Dict κ ν} {k : κ} {v : ν}
    (h : key d k = .ok v) : d.get? k = some v := by
  unfold key at h
  split at h
  · cases h
    assumption
  · cases h

/-- A new IO takes the next number. -/
theorem newIo_opened (hok : newIo st idx r = .ok st') : st'.pids = st.pids ∧
    (∀ i, opened st i ≤ opened st' i) ∧
    (last st idx r.startAddr = none → ∀ d, st'.lastAddr[idx]? = some d →
      d.get? r.startAddr = some (opened st idx)) := by
  obtain ⟨d, hd, hok⟩ := bind_eq_ok.mp hok
  have hlast := last_eq_get? (item_eq_ok hd) r.startAddr
  split_ifs at hok with hs
  · cases hok
    refine ⟨rfl, fun _ ↦ le_rfl, fun hn ↦ ?_⟩
    rw [hlast] at hn
    rw [hn] at hs
    exact absurd hs (by decide)
  · obtain ⟨sets, hsets, hok⟩ := bind_eq_ok.mp hok
    cases hok
    have hlt := (List.getElem?_eq_some_iff.mp (item_eq_ok hd)).1
    have hopen := opened_eq (item_eq_ok hsets)
    refine ⟨rfl, fun i ↦ ?_, fun _ d' hd' ↦ ?_⟩
    · refine le_of_le_of_eq ?_ (opened_set (item_eq_ok hsets) rfl i).symm
      split_ifs with hi
      · rw [hi, hopen, List.length_append]
        omega
      · exact le_rfl
    · rw [List.getElem?_set_self hlt] at hd'
      cases hd'
      rw [Dict.get?_set, if_pos rfl, hopen]

theorem addRequest_opened (hok : addRequest st idx r = .ok st') : st'.pids = st.pids ∧
    (∀ i, opened st' i = opened st i) ∧ ∃ d k, st.lastAddr[idx]? = some d ∧
      d.get? r.startAddr = some k ∧ st'.reqs.get? r.request = some (idx, k) := by
  obtain ⟨d, hd, hok⟩ := bind_eq_ok.mp hok
  obtain ⟨k, hk, hok⟩ := bind_eq_ok.mp hok
  obtain ⟨sets, hsets, hok⟩ := bind_eq_ok.mp hok
  obtain ⟨s, -, hok⟩ := bind_eq_ok.mp hok
  split_ifs at hok
  · cases hok
  · cases hok
    refine ⟨rfl, fun i ↦ ?_, d, k, item_eq_ok hd, key_eq_ok hk,
      (Dict.get?_set _ _ _ _).trans (if_pos rfl)⟩
    exact opened_replace (item_eq_ok hsets) rfl i

/-- A request that no IO leads to opens the next IO of its thread and direction. -/
theorem issue_opened (hok : issue st r = .ok st') (hi : Issued st r idx j st')
    (ha : Accounted st) : (∀ i, opened st i ≤ opened st' i) ∧
      (last st idx r.startAddr = none → j = opened st idx) ∧
      st'.pids = (addPid st r.pid).pids ∧
      ∃ t, st'.pids.get? r.pid = some t ∧ idx = t * 2 + if r.write then 1 else 0 := by
  have hlast : last (addPid st r.pid) = last st := (addPid_spec ha r.pid).2.2.1
  obtain ⟨t, ht, hok⟩ := bind_eq_ok.mp hok
  obtain ⟨st₁, hnew, hadd⟩ := bind_eq_ok.mp hok
  obtain ⟨hpids₁, hle, hnext⟩ := newIo_opened hnew
  obtain ⟨hpids₂, heq, d, k, hd, hk, hreqs⟩ := addRequest_opened hadd
  rw [hi.reqs_eq, Dict.get?_set, if_pos rfl] at hreqs
  obtain ⟨hidx, rfl⟩ := Prod.mk.inj (Option.some.inj hreqs)
  rw [← hidx] at hnext hd
  rw [hlast] at hnext
  refine ⟨fun i ↦ ?_, fun hn ↦ ?_, hpids₂.trans hpids₁, t, ?_, hidx⟩
  · rw [heq, ← opened_addPid r.pid]
    exact hle i
  · have hd' := hnext hn d hd
    rw [hk, opened_addPid] at hd'
    exact Option.some.inj hd'
  · rw [hpids₂, hpids₁]
    exact key_eq_ok ht

theorem complete_opened (hok : complete st r = .ok st') (i : ℕ) : opened st' i = opened st i := by
  unfold complete at hok
  split at hok
  · cases hok
    rfl
  · split_ifs at hok
    · cases hok
    · obtain ⟨sets, hsets, hok⟩ := bind_eq_ok.mp hok
      obtain ⟨s, -, hok⟩ := bind_eq_ok.mp hok
      by_cases hm : r.request ∉ s
      · rw [if_pos hm] at hok
        cases hok
      · rw [if_neg hm] at hok
        dsimp only at hok
        split_ifs at hok
        · obtain ⟨d, -, hok⟩ := bind_eq_ok.mp hok
          cases hok
          exact opened_replace (item_eq_ok hsets) rfl i
        · cases hok
          exact opened_replace (item_eq_ok hsets) rfl i

end Opening

/-- What the journal has in common with the maps of the script. -/
structure Kept (st : State) (journal : Journal) : Prop where
  traced : Traced st (toLog journal)
  pids_inj : ∀ p p' t, st.pids.get? p = some t → st.pids.get? p' = some t → p = p'
  below : ∀ i k, assigned journal (i, k) ≠ [] → k < opened st i
  owner : ∀ i k, ∀ r ∈ assigned journal (i, k),
    ∃ t, st.pids.get? r.pid = some t ∧ i = t * 2 + if r.write then 1 else 0
  chain : ∀ io, (assigned journal io).IsChain fun r r' ↦ r'.startAddr = r.startAddr + r.offset

theorem kept_start : Kept start [] where
  traced := traced_start
  pids_inj p p' t h := by simp [start] at h
  below i k h := absurd rfl h
  owner i k r h := absurd h List.not_mem_nil
  chain io := List.IsChain.nil

theorem addPid_inj (ha : Accounted st)
    (h : ∀ p p' t, st.pids.get? p = some t → st.pids.get? p' = some t → p = p') (q : ℤ) :
    (∀ p p' t, (addPid st q).pids.get? p = some t → (addPid st q).pids.get? p' = some t → p = p') ∧
      ∀ p t, st.pids.get? p = some t → (addPid st q).pids.get? p = some t := by
  unfold addPid
  split_ifs with hq
  · exact ⟨h, fun _ _ ht ↦ ht⟩
  · have hnone : st.pids.get? q = none := by simpa using hq
    have hne : ∀ p t, st.pids.get? p = some t → t ≠ st.vid := fun p t ht ↦
      (ha.pids_lt p t ht).ne
    simp only [Dict.get?_set]
    constructor
    · intro p p' t ht ht'
      split_ifs at ht ht' with hp hp' hp'
      · rw [hp, hp']
      · exact absurd (Option.some.inj ht).symm (hne _ _ ht')
      · exact absurd (Option.some.inj ht').symm (hne _ _ ht)
      · exact h p p' t ht ht'
    · intro p t ht
      rw [if_neg]
      · exact ht
      · rintro rfl
        rw [hnone] at ht
        cases ht

/-- The last request of an IO ends where the next one starts; a new IO has had none. -/
theorem Kept.joins (h : Kept st journal) (hi : Issued st r idx j st')
    (hnew : last st idx r.startAddr = none → j = opened st idx) :
    ∀ r' ∈ (assigned journal (idx, j)).getLast?, r.startAddr = r'.startAddr + r'.offset := by
  intro r' hr'
  rcases hi.joined with hj | ⟨hn, -, -⟩
  · obtain ⟨q, hq, hend⟩ := h.traced.ends _ _ _ hj
    rw [latest_toLog, Option.mem_def.mp hr', Option.map_some, Option.some.injEq] at hq
    rw [← hend, ← hq]
    rfl
  · have hne : assigned journal (idx, j) ≠ [] := by
      intro hnil
      rw [hnil] at hr'
      cases hr'
    have hlt := h.below idx j hne
    rw [← hnew hn] at hlt
    exact absurd hlt (lt_irrefl j)

theorem Kept.issue (h : Kept st journal) (hok : Analyser.issue st r = .ok st')
    (hi : Issued st r idx j st') (hpos : 0 < r.offset) :
    Kept st' (journal ++ [((idx, j), r)]) := by
  have ha := h.traced.accounted
  obtain ⟨hle, hnew, hpids, t, ht, hidx⟩ := issue_opened hok hi ha
  obtain ⟨hinj, hkeep⟩ := addPid_inj ha h.pids_inj r.pid
  have htraced := h.traced.issue hi hpos
  refine ⟨?_, ?_, fun i k hne ↦ ?_, fun i k r' hr' ↦ ?_, fun io ↦ ?_⟩
  · rw [toLog_concat]
    exact htraced
  · rw [hpids]
    exact hinj
  · rw [assigned_concat] at hne
    split_ifs at hne with hik
    · cases hik
      have hslot : slot st' idx j ≠ ∅ := by
        rw [hi.slot_eq, if_pos ⟨rfl, rfl⟩]
        exact Finset.insert_ne_empty _ _
      cases hsets : st'.ios[idx]? with
      | none => exact absurd (by rw [slot, slotOf, hsets]; rfl) hslot
      | some sets =>
        rw [opened_eq hsets]
        exact slot_lt hslot hsets
    · exact (h.below i k hne).trans_le (hle i)
  · have hold : ∀ r' ∈ assigned journal (i, k),
        ∃ t, st'.pids.get? r'.pid = some t ∧ i = t * 2 + if r'.write then 1 else 0 := by
      intro r' hr'
      obtain ⟨t', ht', hi'⟩ := h.owner i k r' hr'
      exact ⟨t', by rw [hpids]; exact hkeep _ _ ht', hi'⟩
    rw [assigned_concat] at hr'
    split_ifs at hr' with hik
    · rcases List.mem_append.mp hr' with hmem | hmem
      · exact hold r' hmem
      · cases hik
        rw [List.mem_singleton.mp hmem]
        exact ⟨t, ht, hidx⟩
    · exact hold r' hr'
  · rw [assigned_concat]
    split_ifs with hio
    · subst hio
      refine List.isChain_append.mpr ⟨h.chain _, List.isChain_singleton _, fun r' hr' y hy ↦ ?_⟩
      obtain rfl : r = y := by simpa using hy
      exact h.joins hi hnew r' hr'
    · exact h.chain io

theorem Kept.complete (h : Kept st journal) (hok : Analyser.complete st r = .ok st')
    (hc : Completed st r idx j st') : Kept st' journal where
  traced := h.traced.complete hc
  pids_inj := by
    rw [hc.pids_eq]
    exact h.pids_inj
  below i k hne := by
    rw [complete_opened hok]
    exact h.below i k hne
  owner := by
    rw [hc.pids_eq]
    exact h.owner
  chain := h.chain

theorem Kept.contiguous (h : Kept st journal) : Contiguous st journal where
  chain := h.chain
  owner := by
    rintro ⟨i, k⟩ r hr r' hr'
    obtain ⟨t, ht, hi⟩ := h.owner i k r hr
    obtain ⟨t', ht', hi'⟩ := h.owner i k r' hr'
    have heq : t = t' ∧ r.write = r'.write := by
      cases hw : r.write <;> cases hw' : r'.write <;> simp [hw, hw'] at hi hi' ⊢ <;> omega
    obtain ⟨rfl, hw⟩ := heq
    exact ⟨h.pids_inj _ _ _ ht ht', hw⟩
  ends i a k hk := by
    obtain ⟨q, hq, hend⟩ := h.traced.ends i a k hk
    rw [latest_toLog] at hq
    obtain ⟨r, hr, rfl⟩ := Option.map_eq_some_iff.mp hq
    exact ⟨r, hr, hend⟩

theorem enter_other (he : r.event ≠ .issued ∨ follows r.name = false) :
    enter follows st' journal r = journal := by
  refine if_neg fun h ↦ ?_
  rcases he with he | he
  · exact he h.1
  · rw [h.2] at he
    cases he

/-- One line: the journal stays in step with the script, and the assertion holds. -/
theorem journalStep_kept (follows : String → Bool) (h : Kept st journal) (hr : r.ignored = false) (hpos : 0 < r.offset) :
    (∃ p, journalStep follows (st, journal) r = .ok p ∧ Kept p.1 p.2) ∨
      journalStep follows (st, journal) r = .error .exit := by
  have hok : ∀ {st'}, handle follows st r = .ok st' → Kept st' (enter follows st' journal r) →
      ∃ p, journalStep follows (st, journal) r = .ok p ∧ Kept p.1 p.2 := by
    intro st' hst hkept
    exact ⟨_, bind_eq_ok.mpr ⟨st', hst, rfl⟩, hkept⟩
  cases he : r.event with
  | issued =>
    by_cases hf : follows r.name = true
    · obtain ⟨idx, j, st', hst, hi⟩ := h.traced.issue_ok hpos
      have hhandle : handle follows st r = .ok st' := by
        simp only [handle, he, hf, if_true, hst]
      refine Or.inl (hok hhandle ?_)
      have henter : enter follows st' journal r = journal ++ [((idx, j), r)] := by
        unfold enter
        rw [if_pos ⟨he, hf⟩, hi.reqs_eq, Dict.get?_set, if_pos rfl]
      rw [henter]
      exact h.issue hst hi hpos
    · have hhandle : handle follows st r = .ok st := by
        simp only [handle, he, hf]
        rfl
      refine Or.inl (hok hhandle ?_)
      rw [enter_other (Or.inr (by simpa using hf))]
      exact h
  | completed =>
    have hhandle : handle follows st r = complete st r := by simp only [handle, he]
    cases hq : st.reqs.get? r.request with
    | none =>
      have hst : complete st r = .ok st := by
        simp only [complete, hq]
        rfl
      refine Or.inl (hok (hhandle.trans hst) ?_)
      rw [enter_other (Or.inl (by simp [he]))]
      exact h
    | some io =>
      obtain ⟨idx, j⟩ := io
      obtain ⟨herr, -⟩ | ⟨st₁, hst, -, hc⟩ :=
        complete_spec h.traced.accounted hq (read_of_not_ignored hr)
      · refine Or.inr ?_
        rw [journalStep, hhandle, herr]
        rfl
      · refine Or.inl (hok (hhandle.trans hst) ?_)
        rw [enter_other (Or.inl (by simp [he]))]
        exact h.complete hst hc
  | other =>
    have hhandle : handle follows st r = .ok st := by
      simp only [handle, he]
      rfl
    refine Or.inl (hok hhandle ?_)
    rw [enter_other (Or.inl (by simp [he]))]
    exact h

theorem kept_run (follows : String → Bool) {rs : List Record} (h : Kept st journal) (hr : ∀ r ∈ rs, r.ignored = false)
    (hpos : ∀ r ∈ rs, 0 < r.offset) :
    (∃ p, rs.foldlM (journalStep follows) (st, journal) = .ok p ∧ Kept p.1 p.2) ∨
      rs.foldlM (journalStep follows) (st, journal) = .error .exit := by
  induction rs generalizing st journal with
  | nil => exact Or.inl ⟨(st, journal), rfl, h⟩
  | cons r rs ih =>
    rw [List.foldlM_cons]
    have hstep := journalStep_kept follows h (hr r List.mem_cons_self) (hpos r List.mem_cons_self)
    rcases hstep with ⟨p, hp, hkept⟩ | herr
    · rw [hp]
      exact ih hkept (fun r' h ↦ hr r' (List.mem_cons_of_mem _ h))
        fun r' h ↦ hpos r' (List.mem_cons_of_mem _ h)
    · rw [herr]
      exact Or.inr rfl

/-- Without the journal, the run is that of the script. -/
theorem journaled_fst (rs : List Record) (st : State) (journal : Journal) :
    (rs.foldlM (journalStep follows) (st, journal)).map Prod.fst =
      rs.foldlM (handle follows) st := by
  induction rs generalizing st journal with
  | nil => rfl
  | cons r rs ih =>
    rw [List.foldlM_cons, List.foldlM_cons, journalStep]
    cases handle follows st r with
    | error e => rfl
    | ok st' => exact ih st' _

/-- At every point of a trace with positive sizes, the requests of each IO are contiguous; the
script has not stopped at its assertion. -/
theorem chains_contiguous (lines : List Line) (hpos : ∀ r ∈ tracked lines, 0 < r.offset)
    {before : List Record} (hbefore : before <+: tracked lines) :
    (journaled follows before).map Prod.fst = before.foldlM (handle follows) start ∧
      (∀ st journal, journaled follows before = .ok (st, journal) → Contiguous st journal) ∧
      before.foldlM (handle follows) start ≠ .error .assertionError := by
  have hfst : (journaled follows before).map Prod.fst = before.foldlM (handle follows) start :=
    journaled_fst before start []
  have hmem : ∀ r ∈ before, r ∈ tracked lines := fun r hr ↦ hbefore.subset hr
  have hrun := kept_run follows kept_start (fun r hr ↦ not_ignored_of_mem (hmem r hr))
    fun r hr ↦ hpos r (hmem r hr)
  refine ⟨hfst, fun st journal hok ↦ ?_, fun hassert ↦ ?_⟩
  · rcases hrun with ⟨p, hp, hkept⟩ | herr
    · obtain rfl := Except.ok.inj (hp.symm.trans hok)
      exact hkept.contiguous
    · cases herr.symm.trans hok
  · rw [← hfst] at hassert
    rcases hrun with ⟨p, hp, -⟩ | herr
    · rw [show journaled follows before = .ok p from hp] at hassert
      cases hassert
    · rw [show journaled follows before = .error .exit from herr] at hassert
      cases hassert

theorem chains_contiguous_sequential :
    (journaled (fun _ ↦ true) (tracked [line .issued 8 8, line .issued 16 8])).map Prod.fst =
        (tracked [line .issued 8 8, line .issued 16 8]).foldlM (handle fun _ ↦ true) start ∧
      (∀ st journal, journaled (fun _ ↦ true) (tracked [line .issued 8 8, line .issued 16 8]) =
        .ok (st, journal) → Contiguous st journal) ∧
      (tracked [line .issued 8 8, line .issued 16 8]).foldlM (handle fun _ ↦ true) start ≠
        .error .assertionError :=
  chains_contiguous [line .issued 8 8, line .issued 16 8, line .completed 8 8] (by decide)
    (by exact ⟨[⟨"0.0", 1, .completed, ['R'], 8, 8, "[micro_bench]"⟩], rfl⟩)

end MqssdModel.Trace.Chains
