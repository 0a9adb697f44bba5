import MqssdModel.Trace.Accounting
import MqssdModel.Trace.Commuting
import MqssdModel.Trace.Counter

namespace MqssdModel.Trace.Restriction

open Data.OrderedDict Analyser Effects ByThread Commuting Accounting Counter

section Threads

variable {bg : ℤ → Bool} {follows : String → Bool} {a a' b c : Threads} {r : Record} {d : Change}
  {o : Option Change} {rs : List Record} {m : Multiset (Request × Bool)}

/-- What is left of `a` when only the threads of `bg` are followed. -/
structure Part (bg : ℤ → Bool) (a b : Threads) : Prop where
  met : ∀ p, b.met p = (a.met p && bg p)
  cells : ∀ c : ByThread.Class, bg c.1 = true → b.cells c = a.cells c
  reqs : ∀ q, b.reqs q = (a.reqs q).filter fun o ↦ bg o.1.1

theorem part_start : Part bg .start .start := ⟨fun _ ↦ rfl, fun _ _ ↦ rfl, fun _ ↦ rfl⟩

/-- The change of a followed thread. -/
def kept (bg : ℤ → Bool) (o : Option Change) : Option Change := o.filter fun d ↦ bg d.cls.1

theorem kept_some : kept bg (some d) = if bg d.cls.1 then some d else none := by
  rw [kept, Option.filter_some]

/-- A thread and a request are met in the class of the change. -/
structure Own (d : Change) : Prop where
  met : ∀ p, d.met = some p → p = d.cls.1
  owner : ∀ o, d.owner = some o → o.1 = d.cls

theorem issued_own (h : issued a r = .ok d) : Own d := by
  obtain ⟨p, -, h⟩ := bind_eq_ok.mp h
  cases h
  exact ⟨fun _ hp ↦ (Option.some.inj hp).symm, fun _ ho ↦ (Option.some.inj ho) ▸ rfl⟩

theorem completed_own {c : ByThread.Class} {j : ℕ} (h : completed a r c j = .ok d) :
    Own d ∧ d.owner = none := by
  unfold completed at h
  split_ifs at h
  · cases h
  · obtain ⟨p, -, h⟩ := bind_eq_ok.mp h
    cases h
    exact ⟨⟨nofun, nofun⟩, rfl⟩

/-- The followed threads make the changes that they make among all threads. -/
theorem Part.plan (h : Part bg a b) (hname : r.event = .issued → follows r.name = bg r.pid)
    (hplan : ByThread.plan (fun _ ↦ true) a r = .ok o) :
    ByThread.plan follows b r = .ok (kept bg o) := by
  unfold ByThread.plan at hplan ⊢
  cases he : r.event with
  | issued =>
    simp only [he, if_true] at hplan ⊢
    cases hd : issued a r with
    | error e =>
      rw [hd] at hplan
      cases hplan
    | ok d =>
      rw [hd] at hplan
      cases hplan
      have hcls := (issued_spec hd).1
      rw [kept_some, hcls, hname he]
      cases hbg : bg r.pid with
      | false => rfl
      | true =>
        have hcell : issued b r = issued a r := by
          unfold issued
          rw [h.cells (r.pid, r.write) hbg]
        rw [if_pos rfl, if_pos rfl, hcell, hd]
        rfl
  | completed =>
    simp only [he] at hplan ⊢
    rw [h.reqs]
    cases hq : a.reqs r.request with
    | none =>
      rw [hq] at hplan
      cases hplan
      rfl
    | some p =>
      obtain ⟨c, j⟩ := p
      rw [hq] at hplan
      dsimp only at hplan
      cases hd : completed a r c j with
      | error e =>
        rw [hd] at hplan
        cases hplan
      | ok d =>
        rw [hd] at hplan
        cases hplan
        have hcls := (completed_spec hd).1
        rw [kept_some, hcls, Option.filter_some]
        dsimp only
        cases hbg : bg c.1 with
        | false => rfl
        | true =>
          have hcell : completed b r c j = completed a r c j := by
            unfold completed
            rw [h.cells c hbg]
          rw [if_pos rfl, if_pos rfl]
          dsimp only
          rw [hcell, hd]
          rfl
  | other =>
    simp only [he] at hplan ⊢
    cases hplan
    rfl

/-- Everything that a change is known to be. -/
theorem plan_own (hplan : ByThread.plan follows a r = .ok (some d)) :
    Own d ∧ (r.event = .issued ∨ ∃ j, a.reqs d.request = some (d.cls, j) ∧ d.owner = none) := by
  unfold ByThread.plan at hplan
  cases he : r.event with
  | issued =>
    simp only [he] at hplan
    split_ifs at hplan
    · exact ⟨issued_own (map_some_eq_ok hplan), .inl rfl⟩
    · cases hplan
  | completed =>
    simp only [he] at hplan
    cases hq : a.reqs r.request with
    | none =>
      simp only [hq] at hplan
      cases hplan
    | some p =>
      simp only [hq] at hplan
      obtain ⟨hown, hnone⟩ := completed_own (map_some_eq_ok hplan)
      obtain ⟨hcls, hreq⟩ := completed_spec (map_some_eq_ok hplan)
      exact ⟨hown, .inr ⟨p.2, by rw [hreq, hcls, hq], hnone⟩⟩
  | other =>
    simp only [he] at hplan
    cases hplan

/-- A change of a followed thread is made on both sides, one of another thread is not seen. -/
theorem Part.apply (h : Part bg a b) (hown : Own d)
    (hfree : bg d.cls.1 = false → b.reqs d.request = none) :
    Part bg (d.apply a) (applied (kept bg (some d)) b) := by
  have howner : d.owner.filter (fun o ↦ bg o.1.1) = if bg d.cls.1 then d.owner else none := by
    cases ho : d.owner with
    | none => split_ifs <;> rfl
    | some o => rw [Option.filter_some, hown.owner o ho]
  have hmet (p : ℤ) (hp : d.met = some p) : bg p = bg d.cls.1 := congrArg bg (hown.met p hp)
  rw [kept_some]
  cases hbg : bg d.cls.1 with
  | true =>
    rw [hbg, if_pos rfl] at howner
    refine ⟨fun p ↦ ?_, fun c hc ↦ ?_, fun q ↦ ?_⟩
    · change (b.met p || decide (d.met = some p)) = ((a.met p || decide (d.met = some p)) && bg p)
      rw [h.met p]
      by_cases hp : d.met = some p
      · simp [hp, hmet p hp, hbg]
      · simp [hp]
    · change Function.update b.cells d.cls d.cell c = Function.update a.cells d.cls d.cell c
      by_cases heq : c = d.cls
      · rw [heq, Function.update_self, Function.update_self]
      · rw [Function.update_of_ne heq, Function.update_of_ne heq, h.cells c hc]
    · change Function.update b.reqs d.request d.owner q =
        (Function.update a.reqs d.request d.owner q).filter fun o ↦ bg o.1.1
      by_cases heq : q = d.request
      · rw [heq, Function.update_self, Function.update_self, howner]
      · rw [Function.update_of_ne heq, Function.update_of_ne heq, h.reqs]
  | false =>
    rw [hbg, if_neg Bool.false_ne_true] at howner
    refine ⟨fun p ↦ ?_, fun c hc ↦ ?_, fun q ↦ ?_⟩
    · change b.met p = ((a.met p || decide (d.met = some p)) && bg p)
      rw [h.met p]
      by_cases hp : d.met = some p
      · simp [hmet p hp, hbg]
      · simp [hp]
    · change b.cells c = Function.update a.cells d.cls d.cell c
      have hne : c ≠ d.cls := by
        rintro rfl
        rw [hbg] at hc
        cases hc
      rw [Function.update_of_ne hne, h.cells c hc]
    · change b.reqs q = (Function.update a.reqs d.request d.owner q).filter fun o ↦ bg o.1.1
      by_cases heq : q = d.request
      · rw [heq, Function.update_self, howner, hfree hbg]
      · rw [Function.update_of_ne heq, h.reqs]

/-- By how much a change moves the counter. -/
def count (o : Option Change) : ℤ := o.elim 0 Change.count

theorem numIos_applied : (applied o a).numIos = a.numIos + count o := by
  cases o with
  | none => exact (Int.add_zero _).symm
  | some d => rfl

theorem count_kept : count o = count (kept bg o) + count (kept (fun p ↦ !bg p) o) := by
  cases o with
  | none => rfl
  | some d =>
    rw [kept_some, kept_some]
    cases bg d.cls.1 <;> simp [count]

/-- The pending requests are those with an owner. -/
def Pending (a : Threads) (m : Multiset (Request × Bool)) : Prop :=
  ∀ q o, a.reqs q = some o → q ∈ m.map Prod.fst

def next (m : Multiset (Request × Bool)) (r : Record) : Multiset (Request × Bool) :=
  match r.event with
  | .issued => (r.request, r.write) ::ₘ m
  | .completed => m.erase (r.request, r.write)
  | .other => m

theorem distinct_cons (h : Distinct m (r :: rs)) :
    (r.event = .issued → r.request ∉ m.map Prod.fst) ∧ Distinct (next m r) rs := by
  unfold Distinct at h
  unfold next
  cases he : r.event with
  | issued =>
    simp only [he] at h
    exact ⟨fun _ ↦ h.1, h.2⟩
  | completed =>
    simp only [he] at h
    exact ⟨nofun, h⟩
  | other =>
    simp only [he] at h
    exact ⟨nofun, h⟩

/-- A request that is not the one of the line stays pending. -/
theorem mem_next {q : Request} (hne : q ≠ r.request) (hq : q ∈ m.map Prod.fst) :
    q ∈ (next m r).map Prod.fst := by
  obtain ⟨p, hp, rfl⟩ := Multiset.mem_map.mp hq
  refine Multiset.mem_map_of_mem Prod.fst ?_
  unfold next
  cases r.event with
  | issued => exact Multiset.mem_cons_of_mem hp
  | completed => exact (Multiset.mem_erase_of_ne fun he ↦ hne (congrArg Prod.fst he)).mpr hp
  | other => exact hp

theorem Pending.step (h : Pending a m) (hplan : ByThread.plan follows a r = .ok o) :
    Pending (applied o a) (next m r) := by
  have hissued (he : r.event = .issued) : r.request ∈ (next m r).map Prod.fst := by
    simp only [next, he, Multiset.map_cons, Multiset.mem_cons_self]
  intro q ow hq
  by_cases heq : q = r.request
  · subst heq
    cases o with
    | none =>
      cases he : r.event with
      | issued => exact hissued he
      | completed =>
        simp only [ByThread.plan, he, show a.reqs r.request = some ow from hq] at hplan
        cases hd : completed a r ow.1 ow.2 with
        | error e =>
          rw [hd] at hplan
          cases hplan
        | ok d =>
          rw [hd] at hplan
          cases hplan
      | other =>
        simp only [next, he]
        exact h _ _ hq
    | some d =>
      rcases plan_own hplan with ⟨-, he | ⟨j, -, hnone⟩⟩
      · exact hissued he
      · have hself : (applied (some d) a).reqs r.request = d.owner := by
          rw [← (plan_spec hplan).2]
          exact Function.update_self _ _ _
        rw [hself, hnone] at hq
        cases hq
  · refine mem_next heq (h q ow ?_)
    cases o with
    | none => exact hq
    | some d =>
      have hother : (applied (some d) a).reqs q = a.reqs q :=
        Function.update_of_ne (fun hd ↦ heq (hd.trans (plan_spec hplan).2)) _ _
      rwa [hother] at hq

/-- One line, seen by all threads and by those that are followed. -/
theorem Part.step (h : Part bg a b) (hpend : Pending a m)
    (hname : r.event = .issued → follows r.name = bg r.pid)
    (hnew : r.event = .issued → r.request ∉ m.map Prod.fst)
    (hplan : ByThread.plan (fun _ ↦ true) a r = .ok o) :
    Commuting.step follows b r = .ok (applied (kept bg o) b) ∧
      Part bg (applied o a) (applied (kept bg o) b) := by
  refine ⟨?_, ?_⟩
  · rw [Commuting.step, h.plan hname hplan]
    rfl
  · cases o with
    | none => exact h
    | some d =>
      obtain ⟨hown, hcase⟩ := plan_own hplan
      refine h.apply hown fun hbg ↦ ?_
      rw [h.reqs]
      rcases hcase with he | ⟨j, hq, -⟩
      · have hnone : a.reqs d.request = none := by
          rw [(plan_spec hplan).2]
          by_contra hsome
          obtain ⟨ow, how⟩ := Option.ne_none_iff_exists'.mp hsome
          exact hnew he (hpend _ _ how)
        rw [hnone]
        rfl
      · rw [hq, Option.filter_some, hbg]
        rfl

/-- The runs that follow some threads and those that follow the others split the run that follows
all of them. -/
theorem parts_run (hb : Part bg a b) (hc : Part (fun p ↦ !bg p) a c)
    (hsum : a.numIos = b.numIos + c.numIos) (hpend : Pending a m) (hd : Distinct m rs)
    (hname : ∀ r ∈ rs, r.event = .issued → follows r.name = bg r.pid)
    (hok : rs.foldlM (Commuting.step fun _ ↦ true) a = .ok a') :
    ∃ b' c', rs.foldlM (Commuting.step follows) b = .ok b' ∧
      rs.foldlM (Commuting.step fun name ↦ !follows name) c = .ok c' ∧ Part bg a' b' ∧
      Part (fun p ↦ !bg p) a' c' ∧ a'.numIos = b'.numIos + c'.numIos := by
  induction rs generalizing a b c m with
  | nil =>
    cases hok
    exact ⟨b, c, rfl, rfl, hb, hc, hsum⟩
  | cons r rs ih =>
    rw [List.foldlM_cons] at hok
    obtain ⟨a₁, hstep, hok⟩ := bind_eq_ok.mp hok
    obtain ⟨o, hplan, happlied⟩ := bind_eq_ok.mp hstep
    cases happlied
    obtain ⟨hnew, hd⟩ := distinct_cons hd
    have hname₀ := hname r List.mem_cons_self
    have hname₁ : r.event = .issued → (!follows r.name) = !bg r.pid :=
      fun he ↦ congrArg (!·) (hname₀ he)
    obtain ⟨hstepb, hb⟩ := hb.step hpend hname₀ hnew hplan
    have hother : Commuting.step (fun name ↦ !follows name) c r = _ ∧ _ :=
      hc.step hpend hname₁ hnew hplan
    obtain ⟨hstepc, hc⟩ := hother
    have hsum' : (applied o a).numIos =
        (applied (kept bg o) b).numIos + (applied (kept (fun p ↦ !bg p) o) c).numIos := by
      have hcount : count o = count (kept bg o) + count (kept (fun p ↦ !bg p) o) := count_kept
      rw [numIos_applied, numIos_applied, numIos_applied]
      omega
    obtain ⟨b', c', hrunb, hrunc, hparts⟩ := ih hb hc hsum' (hpend.step hplan) hd
      (fun r' hr' ↦ hname r' (List.mem_cons_of_mem r hr')) hok
    refine ⟨b', c', ?_, ?_, hparts⟩
    · rw [List.foldlM_cons, hstepb]
      exact hrunb
    · rw [List.foldlM_cons, hstepc]
      exact hrunc

end Threads

section States

variable {bg : ℤ → Bool} {follows : String → Bool} {st st₁ : State} {a b : Threads}
  {lines : List Line}

/-- The threads of `bg` have the same IOs in both states, under the ids that they have there. -/
structure SameIos (bg : ℤ → Bool) (st st₁ : State) : Prop where
  threads : ∀ p, (st₁.pids.get? p).isSome = ((st.pids.get? p).isSome && bg p)
  ios : ∀ p t t₁ w, bg p = true → st.pids.get? p = some t → st₁.pids.get? p = some t₁ →
    st₁.ios[idxOf t₁ w]? = st.ios[idxOf t w]? ∧
      st₁.lastAddr[idxOf t₁ w]? = st.lastAddr[idxOf t w]?

theorem sameIos_of_part (h : Sim st a) (h₁ : Sim st₁ b) (hpart : Part bg a b) :
    SameIos bg st st₁ := by
  refine ⟨fun p ↦ ?_, fun p t t₁ w hbg ht ht₁ ↦ ?_⟩
  · rw [← h.met, ← h₁.met, hpart.met]
  · have hcell := hpart.cells (p, w) hbg
    rw [h.sets p t w ht, h.last p t w ht, h₁.sets p t₁ w ht₁, h₁.last p t₁ w ht₁, hcell]
    exact ⟨rfl, rfl⟩

theorem exists_threads (h : analyse follows start lines = .ok st) :
    ∃ a, (tracked lines).foldlM (Commuting.step follows) .start = .ok a ∧ Sim st a := by
  have hrun := sim_run follows sim_start fun r (hr : r ∈ tracked lines) ↦ not_ignored_of_mem hr
  rw [← analyse_eq] at hrun
  cases hfold : (tracked lines).foldlM (Commuting.step follows) .start with
  | error e =>
    rw [hfold, h] at hrun
    cases hrun
  | ok a =>
    rw [hfold] at hrun
    obtain ⟨st', hok, hsim⟩ := hrun
    rw [h] at hok
    cases hok
    exact ⟨a, rfl, hsim⟩

theorem exists_state (h : (tracked lines).foldlM (Commuting.step follows) .start = .ok a) :
    ∃ st, analyse follows start lines = .ok st ∧ Sim st a ∧ 0 ≤ st.numIos := by
  have hrun := sim_run follows sim_start fun r (hr : r ∈ tracked lines) ↦ not_ignored_of_mem hr
  rw [h, ← analyse_eq] at hrun
  obtain ⟨st, hok, hsim⟩ := hrun
  have hsafe : Safe (analyse follows start lines) := safe_analyse lines
  rw [hok] at hsafe
  exact ⟨st, hok, hsim, hsafe.2.1⟩

/-- The threads that `parse_log.py` follows. -/
def background (name : String) : Bool := name = "[rocksdb:high]" || name = "[rocksdb:low]"

/-- If no range is requested twice at the same time and the name of a thread says whether it is a
background thread, then `parse_log.py` counts the IOs of the background threads among all IOs in
flight: it ends where the analysis of all threads does, with the same IOs for each of these
threads, and the IOs of the other threads make up the difference. -/
theorem log_restricts_trace (bg : ℤ → Bool) (hd : Distinct 0 (tracked (lines.take 20000000)))
    (hname : ∀ r ∈ tracked (lines.take 20000000), r.event = .issued →
      background r.name = bg r.pid)
    (hok : parseTrace (lines.take 20000000) = .ok st) :
    ∃ st₁ st₂, parseLog lines = .ok st₁ ∧
      analyse (fun name ↦ !background name) start (lines.take 20000000) = .ok st₂ ∧
      st.numIos = st₁.numIos + st₂.numIos ∧ 0 ≤ st₁.numIos ∧ 0 ≤ st₂.numIos ∧
      SameIos bg st st₁ ∧ SameIos (fun p ↦ !bg p) st st₂ := by
  obtain ⟨a, hfold, hsim⟩ := exists_threads hok
  have hpend : Pending .start 0 := fun q o hq ↦ by cases hq
  obtain ⟨b, c, hb, hc, hpartb, hpartc, hsum⟩ :=
    parts_run part_start part_start rfl hpend hd hname hfold
  obtain ⟨st₁, hok₁, hsim₁, hnonneg₁⟩ := exists_state hb
  obtain ⟨st₂, hok₂, hsim₂, hnonneg₂⟩ := exists_state hc
  refine ⟨st₁, st₂, hok₁, hok₂, ?_, hnonneg₁, hnonneg₂, sameIos_of_part hsim hsim₁ hpartb,
    sameIos_of_part hsim hsim₂ hpartc⟩
  rw [hsim.numIos, hsim₁.numIos, hsim₂.numIos, hsum]

def threadLine (pid : ℤ) (name : String) (event : Event) (start offset : ℤ) : Line :=
  .record ⟨"0.0", pid, event, ['W'], start, offset, name⟩

/-- A compaction and a client write at the same time. -/
def mixed : List Line :=
  [threadLine 1 "[rocksdb:low]" .issued 8 8, threadLine 2 "[db_bench]" .issued 16 8,
    threadLine 1 "[rocksdb:low]" .issued 16 16, threadLine 2 "[db_bench]" .completed 16 8]

theorem log_restricts_trace_mixed : ∃ st st₁ st₂, parseTrace (mixed.take 20000000) = .ok st ∧
    parseLog mixed = .ok st₁ ∧
    analyse (fun name ↦ !background name) start (mixed.take 20000000) = .ok st₂ ∧
    st.numIos = st₁.numIos + st₂.numIos ∧ SameIos (· = 1) st st₁ := by
  have htake : mixed.take 20000000 = mixed := by
    rw [List.take_of_length_le]
    decide
  have hd : Distinct 0 (tracked (mixed.take 20000000)) := by
    rw [htake]
    decide
  have hname : ∀ r ∈ tracked (mixed.take 20000000), r.event = .issued →
      background r.name = decide (r.pid = 1) := by
    rw [htake]
    decide
  have hnum : (parseTrace (mixed.take 20000000)).map (·.numIos) = .ok 1 := by
    rw [htake]
    decide
  cases hok : parseTrace (mixed.take 20000000) with
  | error e =>
    rw [hok] at hnum
    cases hnum
  | ok st =>
    obtain ⟨st₁, st₂, hlog, hrest, hsum, -, -, hsame, -⟩ :=
      log_restricts_trace (· = 1) hd hname hok
    exact ⟨st, st₁, st₂, rfl, hlog, hrest, hsum, hsame⟩

end States

end MqssdModel.Trace.Restriction
