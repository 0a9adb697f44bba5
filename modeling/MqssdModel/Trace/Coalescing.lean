import Mathlib.Data.List.Infix
import MqssdModel.Trace.Effects

namespace MqssdModel.Trace.Coalescing

open Data.OrderedDict Analyser Slots Effects

/-- The requests issued so far, each with the IO that it went to, the newest first. -/
abbrev Log := List ((ℕ × ℕ) × Request)

def latest (log : Log) (io : ℕ × ℕ) : Option Request :=
  (log.find? fun e ↦ e.1 = io).map Prod.snd

section Observing

variable (follows : String → Bool)

def note (st : State) (log : Log) (r : Record) : Log :=
  if r.event = .issued ∧ follows r.name = true then
    match st.reqs.get? r.request with
    | some io => (io, r.request) :: log
    | none => log
  else log

/-- A step of the script that also keeps the log. -/
def observe (p : State × Log) (r : Record) : Except Abort (State × Log) := do
  let st ← handle follows p.1 r
  return (st, note follows st p.2 r)

def observed (rs : List Record) : Except Abort (State × Log) := rs.foldlM (observe follows) (start, [])

end Observing

/-- The index of the thread and direction of a line, if the thread has been met before. -/
def classOf (st : State) (r : Record) : Option ℕ :=
  (st.pids.get? r.pid).map fun t ↦ t * 2 + if r.write then 1 else 0

/-- The IO has an outstanding request and its most recent one ends at `a`. -/
def EndsAt (st : State) (log : Log) (i j : ℕ) (a : ℤ) : Prop :=
  slot st i j ≠ ∅ ∧ ∃ q, latest log (i, j) = some q ∧ q.1 + q.2 = a

/-- An IO of the line's thread and direction that ends where the line starts. -/
def Continues (st : State) (log : Log) (r : Record) (i j : ℕ) : Prop :=
  classOf st r = some i ∧ EndsAt st log i j r.startAddr

/-- A followed line opens a new IO exactly if there is none for it to continue, and joins one of
those that it continues otherwise. -/
def Coalesces (follows : String → Bool) (lines : List Line) : Prop :=
  ∀ before r after st log, tracked lines = before ++ r :: after → r.event = .issued →
    follows r.name = true → observed follows before = .ok (st, log) →
    ∃ st', handle follows st r = .ok st' ∧
      (st'.numIos = st.numIos + 1 ↔ ¬ ∃ i j, Continues st log r i j) ∧
      ((∃ i j, Continues st log r i j) → st'.numIos = st.numIos ∧
        ∃ i j, Continues st log r i j ∧ st'.reqs.get? r.request = some (i, j))

/-- No two IOs of one thread and direction that have outstanding requests end at one address. -/
def Separate (p : State × Log) : Prop :=
  ∀ e ∈ p.2, ∀ e' ∈ p.2, e.1.1 = e'.1.1 → slot p.1 e.1.1 e.1.2 ≠ ∅ →
    slot p.1 e'.1.1 e'.1.2 ≠ ∅ → latest p.2 e.1 = some e.2 → latest p.2 e'.1 = some e'.2 →
    e.2.1 + e.2.2 = e'.2.1 + e'.2.2 → e.1 = e'.1

instance (p : State × Log) : Decidable (Separate p) :=
  inferInstanceAs (Decidable (∀ e ∈ p.2, ∀ e' ∈ p.2, e.1.1 = e'.1.1 → slot p.1 e.1.1 e.1.2 ≠ ∅ →
    slot p.1 e'.1.1 e'.1.2 ≠ ∅ → latest p.2 e.1 = some e.2 → latest p.2 e'.1 = some e'.2 →
    e.2.1 + e.2.2 = e'.2.1 + e'.2.2 → e.1 = e'.1))

def Apart (follows : String → Bool) (lines : List Line) : Prop :=
  ∀ before ∈ (tracked lines).inits, ∀ p ∈ (observed follows before).toOption, Separate p

instance (follows : String → Bool) (lines : List Line) : Decidable (Apart follows lines) :=
  inferInstanceAs (Decidable (∀ before ∈ (tracked lines).inits,
    ∀ p ∈ (observed follows before).toOption, Separate p))

variable {follows : String → Bool} {st st' : State} {log : Log} {r : Record} {idx j : ℕ}

@[simp] theorem latest_cons (io io' : ℕ × ℕ) (q : Request) :
    latest ((io, q) :: log) io' = if io = io' then some q else latest log io' := by
  unfold latest
  by_cases h : io = io'
  · simp [h]
  · simp [h]

theorem mem_of_latest {io : ℕ × ℕ} {q : Request} (h : latest log io = some q) :
    (io, q) ∈ log := by
  obtain ⟨e, he, rfl⟩ := Option.map_eq_some_iff.mp h
  have hio : e.1 = io := by simpa using List.find?_some he
  rw [← hio]
  exact List.mem_of_find?_eq_some he

theorem Separate.unique (h : Separate (st, log)) {i k : ℕ} {a : ℤ} (hj : EndsAt st log i j a)
    (hk : EndsAt st log i k a) : j = k := by
  obtain ⟨hoj, q, hq, hqa⟩ := hj
  obtain ⟨hok, q', hq', hqa'⟩ := hk
  have he := h _ (mem_of_latest hq) _ (mem_of_latest hq') rfl hoj hok hq hq'
    (hqa.trans hqa'.symm)
  exact (Prod.mk.inj he).2

/-- The maps and the log agree. -/
structure Traced (st : State) (log : Log) : Prop where
  accounted : Accounted st
  ends : ∀ i a k, last st i a = some k → ∃ q, latest log (i, k) = some q ∧ q.1 + q.2 = a
  below : ∀ i k q, q ∈ slot st i k → ∃ q', latest log (i, k) = some q' ∧ q.1 < q'.1 + q'.2

/-- Every open IO is found at the end of its most recent request. -/
def Found (st : State) (log : Log) : Prop :=
  ∀ i k a, EndsAt st log i k a → last st i a = some k

theorem Traced.issue (h : Traced st log) (hi : Issued st r idx j st') (hpos : 0 < r.offset) :
    Traced st' (((idx, j), r.request) :: log) where
  accounted := hi.accounted h.accounted
  ends i a k hk := by
    rw [hi.last_eq] at hk
    rw [latest_cons]
    split_ifs at hk with hidx ha hs
    · cases hk
      rw [if_pos (by rw [hidx])]
      exact ⟨_, rfl, ha.symm⟩
    · subst hidx
      have hne : k ≠ j := by
        rintro rfl
        rcases hi.joined with hj | ⟨-, -, hn⟩
        · exact hs (h.accounted.last_inj _ _ _ _ hk hj)
        · exact hn a hk
      rw [if_neg fun he ↦ hne (Prod.mk.inj he).2.symm]
      exact h.ends i a k hk
    · rw [if_neg fun he ↦ hidx (Prod.mk.inj he).1.symm]
      exact h.ends i a k hk
  below i k q hq := by
    rw [hi.slot_eq] at hq
    rw [latest_cons]
    split_ifs at hq with hik
    · rw [if_pos (by rw [hik.1, hik.2])]
      refine ⟨_, rfl, ?_⟩
      change q.1 < r.startAddr + r.offset
      rcases Finset.mem_insert.mp hq with rfl | hq
      · change r.startAddr < r.startAddr + r.offset
        omega
      · rcases hi.joined with hj | ⟨-, he, -⟩
        · obtain ⟨q₁, hq₁, hend⟩ := h.ends _ _ _ hj
          obtain ⟨q₂, hq₂, hlt⟩ := h.below _ _ _ hq
          rw [hq₁] at hq₂
          cases hq₂
          omega
        · rw [he] at hq
          exact absurd hq (Finset.notMem_empty q)
    · rw [if_neg fun he ↦ hik ⟨(Prod.mk.inj he).1.symm, (Prod.mk.inj he).2.symm⟩]
      exact h.below i k q hq

theorem Traced.complete (h : Traced st log) (hc : Completed st r idx j st') : Traced st' log where
  accounted := hc.accounted h.accounted
  ends i a k hk := by
    rw [hc.last_eq] at hk
    split_ifs at hk
    exact h.ends i a k hk
  below i k q hq := by
    rw [hc.slot_eq] at hq
    split_ifs at hq with hik
    · rw [hik.1, hik.2]
      exact h.below idx j q (Finset.mem_of_mem_erase hq)
    · exact h.below i k q hq

/-- An IO loses its entry only to another one that comes to end at the same address. -/
theorem Found.issue (hf : Found st log) (hi : Issued st r idx j st')
    (hs : Separate (st', ((idx, j), r.request) :: log)) :
    Found st' (((idx, j), r.request) :: log) := by
  intro i k a hk
  have hnew : EndsAt st' (((idx, j), r.request) :: log) idx j (r.startAddr + r.offset) := by
    refine ⟨?_, _, by rw [latest_cons, if_pos rfl], rfl⟩
    rw [hi.slot_eq, if_pos ⟨rfl, rfl⟩]
    exact Finset.insert_ne_empty _ _
  rw [hi.last_eq]
  by_cases hidx : i = idx
  · subst hidx
    rw [if_pos rfl]
    by_cases ha : a = r.startAddr + r.offset
    · rw [if_pos ha]
      exact congrArg some (hs.unique hnew (ha ▸ hk))
    · have hne : k ≠ j := by
        rintro rfl
        obtain ⟨-, q, hq, hqa⟩ := hk
        rw [latest_cons, if_pos rfl] at hq
        cases hq
        exact ha hqa.symm
      have hold : EndsAt st log i k a := by
        obtain ⟨hopen, q, hq, hqa⟩ := hk
        rw [hi.slot_eq, if_neg fun h ↦ hne h.2] at hopen
        rw [latest_cons, if_neg fun h ↦ hne (Prod.mk.inj h).2.symm] at hq
        exact ⟨hopen, q, hq, hqa⟩
      have hl := hf i k a hold
      rw [if_neg ha, if_neg]
      · exact hl
      · rintro rfl
        rcases hi.joined with hj | ⟨hn, -, -⟩
        · rw [hl] at hj
          exact hne (Option.some.inj hj)
        · rw [hl] at hn
          cases hn
  · rw [if_neg hidx]
    refine hf i k a ?_
    obtain ⟨hopen, q, hq, hqa⟩ := hk
    rw [hi.slot_eq, if_neg fun h ↦ hidx h.1] at hopen
    rw [latest_cons, if_neg fun h ↦ hidx (Prod.mk.inj h).1.symm] at hq
    exact ⟨hopen, q, hq, hqa⟩

theorem Found.complete (hf : Found st log) (hc : Completed st r idx j st') : Found st' log := by
  rintro i k a ⟨hopen, hq⟩
  rw [hc.slot_eq] at hopen
  have hold : slot st i k ≠ ∅ := by
    split_ifs at hopen with hik
    · rw [hik.1, hik.2]
      exact Finset.ne_empty_of_mem hc.mem
    · exact hopen
  have hl := hf i k a ⟨hold, hq⟩
  rw [hc.last_eq, if_neg]
  · exact hl
  · rintro ⟨rfl, hempty, hj⟩
    rw [hl] at hj
    cases hj
    rw [if_pos ⟨rfl, rfl⟩] at hopen
    exact hopen hempty

theorem addRequest_reqs (hok : addRequest st idx r = .ok st') :
    ∃ k, st'.reqs.get? r.request = some (idx, k) := by
  obtain ⟨d, -, hok⟩ := bind_eq_ok.mp hok
  obtain ⟨k, -, hok⟩ := bind_eq_ok.mp hok
  obtain ⟨sets, -, hok⟩ := bind_eq_ok.mp hok
  obtain ⟨s, -, hok⟩ := bind_eq_ok.mp hok
  split_ifs at hok
  · cases hok
  · cases hok
    exact ⟨k, (Dict.get?_set _ _ _ _).trans (if_pos rfl)⟩

/-- Which thread and direction a request goes to. -/
theorem issue_class (hok : issue st r = .ok st') : ∃ t k,
    (st.pids.get? r.pid = some t ∨ st.pids.get? r.pid = none ∧ t = st.vid) ∧
      st'.reqs.get? r.request = some (t * 2 + if r.write then 1 else 0, k) := by
  obtain ⟨t, ht, hok⟩ := bind_eq_ok.mp hok
  obtain ⟨st₁, -, hok⟩ := bind_eq_ok.mp hok
  obtain ⟨k, hk⟩ := addRequest_reqs hok
  refine ⟨t, k, ?_, hk⟩
  have hkey : (addPid st r.pid).pids.get? r.pid = some t := by
    unfold key at ht
    split at ht
    · cases ht
      assumption
    · cases ht
  unfold addPid at hkey
  split_ifs at hkey with hp
  · exact .inl hkey
  · rw [Dict.get?_set, if_pos rfl] at hkey
    exact .inr ⟨by simpa using hp, (Option.some.inj hkey).symm⟩

/-- The request goes to an IO of its own thread and direction, or of a thread without any. -/
theorem class_or_new (hi : Issued st r idx j st') (ha : Accounted st)
    (hok : issue st r = .ok st') :
    classOf st r = some idx ∨ classOf st r = none ∧ ∀ a, last st idx a = none := by
  obtain ⟨t, k, ht, hreqs⟩ := issue_class hok
  rw [hi.reqs_eq, Dict.get?_set, if_pos rfl] at hreqs
  obtain ⟨rfl, rfl⟩ := Prod.mk.inj (Option.some.inj hreqs)
  unfold classOf
  rcases ht with ht | ⟨ht, rfl⟩
  · exact .inl (by rw [ht, Option.map_some])
  · refine .inr ⟨by rw [ht, Option.map_none], fun a ↦ ?_⟩
    have hlen := ha.lastAddr_length
    rw [last, lastOf, List.getElem?_eq_none (by split_ifs <;> omega), Option.bind_none]

theorem note_issue (he : r.event = .issued) (hf : follows r.name = true)
    (hi : Issued st r idx j st') : note follows st' log r = ((idx, j), r.request) :: log := by
  unfold note
  rw [if_pos ⟨he, hf⟩, hi.reqs_eq, Dict.get?_set, if_pos rfl]

theorem note_other (he : r.event ≠ .issued ∨ follows r.name = false) :
    note follows st' log r = log := by
  unfold note
  refine if_neg fun h ↦ ?_
  rcases he with he | he
  · exact he h.1
  · rw [h.2] at he
    cases he

theorem Traced.handle {log' : Log} (h : Traced st log) (hr : r.ignored = false)
    (hpos : 0 < r.offset) (hok : observe follows (st, log) r = .ok (st', log')) :
    Traced st' log' ∧ (Found st log → Separate (st', log') → Found st' log') := by
  obtain ⟨st₁, hst, hok⟩ := bind_eq_ok.mp hok
  cases hok
  have hcases := hst
  unfold Analyser.handle at hcases
  cases he : r.event with
  | issued =>
    simp only [he] at hcases
    split_ifs at hcases with hf
    · obtain ⟨idx, j, ⟨-, -, herr⟩ | ⟨st₂, hst₂, hi⟩⟩ := issue_spec h.accounted r
      · rw [herr] at hcases
        cases hcases
      · rw [hst₂] at hcases
        cases hcases
        rw [note_issue he hf hi]
        exact ⟨h.issue hi hpos, fun hfound hs ↦ hfound.issue hi hs⟩
    · cases hcases
      rw [note_other (.inr (by simpa using hf))]
      exact ⟨h, fun hfound _ ↦ hfound⟩
  | completed =>
    rw [note_other (.inl (by rw [he]; decide))]
    obtain rfl | ⟨hev, -⟩ | ⟨-, idx, j, -, hc⟩ := handle_cases h.accounted hr hst
    · exact ⟨h, fun hfound _ ↦ hfound⟩
    · rw [he] at hev
      cases hev
    · exact ⟨h.complete hc, fun hfound _ ↦ hfound.complete hc⟩
  | other =>
    rw [note_other (.inl (by rw [he]; decide))]
    simp only [he] at hcases
    cases hcases
    exact ⟨h, fun hfound _ ↦ hfound⟩

theorem traced_start : Traced start [] where
  accounted := accounted_start
  ends i a k h := by simp [last, lastOf, start] at h
  below i k q h := by simp [slot, slotOf, start] at h

theorem traced_run {rs : List Record} (hr : ∀ r ∈ rs, r.ignored = false)
    (hpos : ∀ r ∈ rs, 0 < r.offset) (hok : observed follows rs = .ok (st, log)) :
    Traced st log ∧
      ((∀ before ∈ rs.inits, ∀ p ∈ (observed follows before).toOption, Separate p) →
        Found st log) := by
  induction rs using List.reverseRecOn generalizing st log with
  | nil =>
    cases hok
    refine ⟨traced_start, fun _ ↦ ?_⟩
    rintro i k a ⟨h, -⟩
    exact absurd rfl h
  | append_singleton rs r ih =>
    have hrun := hok
    unfold observed at hok
    rw [List.foldlM_append] at hok
    obtain ⟨⟨st₁, log₁⟩, h₁, hok⟩ := bind_eq_ok.mp hok
    obtain ⟨ht, hf⟩ := ih (fun r' h ↦ hr r' (List.mem_append_left _ h))
      (fun r' h ↦ hpos r' (List.mem_append_left _ h)) h₁
    have hmem : r ∈ rs ++ [r] := List.mem_append_right _ List.mem_cons_self
    obtain ⟨⟨st₂, log₂⟩, h₂, hok⟩ := bind_eq_ok.mp (List.foldlM_cons.symm.trans hok)
    cases hok
    obtain ⟨ht', hf'⟩ := ht.handle (hr r hmem) (hpos r hmem) h₂
    refine ⟨ht', fun hap ↦ hf' (hf fun before hb ↦ hap before ?_) ?_⟩
    · rw [List.mem_inits] at hb ⊢
      exact hb.trans (List.prefix_append _ _)
    · refine hap _ (by rw [List.mem_inits]) _ ?_
      rw [hrun]
      rfl

/-- The requests that an IO waits for start before its end, so the next one is not among them. -/
theorem Traced.issue_ok (h : Traced st log) (hpos : 0 < r.offset) :
    ∃ idx j st', Analyser.issue st r = .ok st' ∧ Issued st r idx j st' := by
  obtain ⟨idx, j, ⟨hmem, hl, -⟩ | ⟨st', hok, hi⟩⟩ := issue_spec h.accounted r
  · obtain ⟨q, hq, hqa⟩ := h.ends _ _ _ hl
    obtain ⟨q', hq', hlt⟩ := h.below _ _ _ hmem
    rw [hq] at hq'
    cases hq'
    change r.startAddr < _ at hlt
    omega
  · exact ⟨idx, j, st', hok, hi⟩

def line (event : Event) (start offset : ℤ) : Line :=
  .record ⟨"0.0", 1, event, ['R'], start, offset, "[micro_bench]"⟩

def sameEnd : List Line := [line .issued 8 8, line .issued 12 4, line .completed 12 4,
  line .issued 16 4]

end MqssdModel.Trace.Coalescing
