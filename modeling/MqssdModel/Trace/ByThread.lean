import Mathlib.Logic.Function.Basic
import MqssdModel.Trace.Effects

namespace MqssdModel.Trace.ByThread

open Data.OrderedDict Analyser Effects

/-- A thread and its direction, `true` for writes. -/
abbrev Class := ℤ × Bool

/-- The IOs of one class and the addresses at which they end. -/
structure Cell where
  sets : List (Finset Request)
  last : Dict ℤ ℕ

namespace Cell

def none : Cell := ⟨[], .empty⟩

def enter (c : Cell) (r : Record) : Cell × ℤ :=
  if (c.last.get? r.startAddr).isSome then (c, 0)
  else (⟨c.sets ++ [∅], c.last.set r.startAddr c.sets.length⟩, 1)

def join (c : Cell) (r : Record) : Except Abort (Cell × ℕ) := do
  let j ← key c.last r.startAddr
  let s ← item c.sets j
  if r.request ∈ s then throw .assertionError
  return (⟨c.sets.set j (insert r.request s),
    (c.last.erase r.startAddr).set (r.startAddr + r.offset) j⟩, j)

def leave (c : Cell) (r : Record) (j : ℕ) : Except Abort (Cell × ℤ) := do
  let s ← item c.sets j
  if r.request ∉ s then throw .keyError
  return if s.erase r.request = ∅ then (⟨c.sets.set j (s.erase r.request), c.last.eraseValue j⟩, -1)
    else (⟨c.sets.set j (s.erase r.request), c.last⟩, 0)

end Cell

/-- The state of the analyser without thread ids: everything is kept by thread. -/
structure Threads where
  numIos : ℤ
  met : ℤ → Bool
  cells : Class → Cell
  reqs : Request → Option (Class × ℕ)

/-- What one event does: it gives a class a new cell and a request a new owner. -/
structure Change where
  met : Option ℤ
  cls : Class
  cell : Cell
  count : ℤ
  request : Request
  owner : Option (Class × ℕ)

def Change.apply (d : Change) (a : Threads) : Threads where
  numIos := a.numIos + d.count
  met p := a.met p || d.met = some p
  cells := Function.update a.cells d.cls d.cell
  reqs := Function.update a.reqs d.request d.owner

def Threads.start : Threads := ⟨0, fun _ ↦ false, fun _ ↦ .none, fun _ ↦ none⟩

def issued (a : Threads) (r : Record) : Except Abort Change := do
  let (cell, count) := (a.cells (r.pid, r.write)).enter r
  let (cell, j) ← cell.join r
  return ⟨some r.pid, (r.pid, r.write), cell, count, r.request, some ((r.pid, r.write), j)⟩

def completed (a : Threads) (r : Record) (c : Class) (j : ℕ) : Except Abort Change := do
  if r.write ≠ c.2 then throw .exit
  let (cell, count) ← (a.cells c).leave r j
  return ⟨none, c, cell, count, r.request, none⟩

/-- The change that a line makes, if it makes one. -/
def plan (follows : String → Bool) (a : Threads) (r : Record) : Except Abort (Option Change) :=
  match r.event with
  | .issued => if follows r.name then some <$> issued a r else return none
  | .completed =>
    match a.reqs r.request with
    | none => return none
    | some (c, j) => some <$> completed a r c j
  | .other => return none

def idxOf (t : ℕ) (w : Bool) : ℕ := t * 2 + if w then 1 else 0

theorem idxOf_inj {t t' : ℕ} {w w' : Bool} (h : idxOf t w = idxOf t' w') : t = t' ∧ w = w' := by
  unfold idxOf at h
  cases w <;> cases w' <;> simp at h ⊢ <;> omega

theorem idxOf_lt {t n : ℕ} (h : t < n) (w : Bool) : idxOf t w < 2 * n := by
  unfold idxOf
  split_ifs <;> omega

theorem idxOf_mod (t : ℕ) (w : Bool) : idxOf t w % 2 = if w then 1 else 0 := by
  unfold idxOf
  split_ifs <;> omega

/-- The script's state holds the cells under the ids that it gave to the threads. -/
structure Sim (st : State) (a : Threads) : Prop where
  ios_length : st.ios.length = 2 * st.vid
  lastAddr_length : st.lastAddr.length = 2 * st.vid
  numIos : st.numIos = a.numIos
  met : ∀ p, a.met p = (st.pids.get? p).isSome
  pids_lt : ∀ p t, st.pids.get? p = some t → t < st.vid
  pids_inj : ∀ p p' t, st.pids.get? p = some t → st.pids.get? p' = some t → p = p'
  pids_surj : ∀ t < st.vid, ∃ p, st.pids.get? p = some t
  sets : ∀ p t w, st.pids.get? p = some t → st.ios[idxOf t w]? = some (a.cells (p, w)).sets
  last : ∀ p t w, st.pids.get? p = some t → st.lastAddr[idxOf t w]? = some (a.cells (p, w)).last
  new : ∀ p w, st.pids.get? p = none → a.cells (p, w) = .none
  reqs_none : ∀ q, a.reqs q = none → st.reqs.get? q = none
  reqs_some : ∀ q c j, a.reqs q = some (c, j) →
    ∃ t, st.pids.get? c.1 = some t ∧ st.reqs.get? q = some (idxOf t c.2, j)

theorem sim_start : Sim start .start where
  ios_length := rfl
  lastAddr_length := rfl
  numIos := rfl
  met _ := rfl
  pids_lt _ _ h := by simp [start] at h
  pids_inj _ _ _ h := by simp [start] at h
  pids_surj _ h := by simp [start] at h
  sets _ _ _ h := by simp [start] at h
  last _ _ _ h := by simp [start] at h
  new _ _ _ := rfl
  reqs_none _ _ := rfl
  reqs_some _ _ _ h := by simp [Threads.start] at h

variable {st st' : State} {a : Threads} {r : Record} {follows : String → Bool}

theorem getElem?_push {α : Type*} {xs : List α} {n t : ℕ} (hlen : xs.length = 2 * n) (x : α)
    (w : Bool) :
    (xs ++ [x, x])[idxOf t w]? = if t = n then some x else xs[idxOf t w]? := by
  rcases Nat.lt_trichotomy t n with h | h | h
  · rw [if_neg (Nat.ne_of_lt h), List.getElem?_append_left (by rw [hlen]; exact idxOf_lt h w)]
  · subst h
    rw [if_pos rfl, List.getElem?_append_right (by rw [hlen]; unfold idxOf; omega), hlen]
    cases w with
    | false => rw [show idxOf t false - 2 * t = 0 by simp [idxOf]; omega]; rfl
    | true => rw [show idxOf t true - 2 * t = 1 by simp [idxOf]; omega]; rfl
  · rw [if_neg (Nat.ne_of_gt h), List.getElem?_eq_none, List.getElem?_eq_none]
    · rw [hlen]
      unfold idxOf
      omega
    · rw [List.length_append, hlen]
      simp only [List.length_cons, List.length_nil]
      unfold idxOf
      omega

/-- A thread that is met for the first time gets the next id. -/
theorem Sim.meet (h : Sim st a) (p : ℤ) :
    Sim (addPid st p) { a with met := fun p' ↦ a.met p' || some p = some p' } ∧
      (addPid st p).reqs = st.reqs ∧ ∃ t, (addPid st p).pids.get? p = some t := by
  unfold addPid
  by_cases hp : (st.pids.get? p).isSome
  · rw [if_pos hp]
    refine ⟨{ h with met := fun p' ↦ ?_ }, rfl, Option.isSome_iff_exists.mp hp⟩
    by_cases he : p = p'
    · subst he
      simp [hp]
    · simp [he, h.met]
  · have hnone : st.pids.get? p = none := by simpa using hp
    have hget : ∀ p' t, (st.pids.set p st.vid).get? p' = some t ↔
        p' = p ∧ t = st.vid ∨ p' ≠ p ∧ st.pids.get? p' = some t := by
      intro p' t
      rw [Dict.get?_set]
      by_cases he : p' = p
      · simp [he, eq_comm]
      · simp [he]
    have hne : ∀ p' t, st.pids.get? p' = some t → t ≠ st.vid := fun p' t ht ↦
      Nat.ne_of_lt (h.pids_lt p' t ht)
    have hother : ∀ {p' t}, st.pids.get? p' = some t → p' ≠ p := by
      rintro p' t ht rfl
      rw [hnone] at ht
      cases ht
    rw [if_neg hp]
    refine ⟨⟨?_, ?_, h.numIos, ?_, ?_, ?_, ?_, ?_, ?_, ?_, h.reqs_none, ?_⟩, rfl, st.vid,
      (hget _ _).mpr (.inl ⟨rfl, rfl⟩)⟩
    · simp only [List.length_append, h.ios_length, List.length_cons, List.length_nil]
      omega
    · simp only [List.length_append, h.lastAddr_length, List.length_cons, List.length_nil]
      omega
    · intro p'
      change (a.met p' || decide (some p = some p')) = ((st.pids.set p st.vid).get? p').isSome
      rw [Dict.get?_set, h.met]
      by_cases he : p' = p
      · simp [he]
      · simp [he, Ne.symm he]
    · intro p' t ht
      rcases (hget p' t).mp ht with ⟨-, rfl⟩ | ⟨-, ht⟩
      · exact Nat.lt_succ_self _
      · exact Nat.lt_succ_of_lt (h.pids_lt p' t ht)
    · intro p₁ p₂ t h₁ h₂
      rcases (hget p₁ t).mp h₁ with ⟨he₁, rfl⟩ | ⟨-, h₁⟩ <;>
        rcases (hget p₂ _).mp h₂ with ⟨he₂, ht₂⟩ | ⟨-, h₂⟩
      · rw [he₁, he₂]
      · exact absurd rfl (hne _ _ h₂)
      · exact absurd ht₂ (hne _ _ h₁)
      · exact h.pids_inj _ _ _ h₁ h₂
    · intro t ht
      change t < st.vid + 1 at ht
      by_cases he : t = st.vid
      · exact ⟨p, (hget _ _).mpr (.inl ⟨rfl, he⟩)⟩
      · obtain ⟨p', hp'⟩ := h.pids_surj t (by omega)
        exact ⟨p', (hget _ _).mpr (.inr ⟨hother hp', hp'⟩)⟩
    · intro p' t w ht
      refine (getElem?_push h.ios_length [] w).trans ?_
      rcases (hget p' t).mp ht with ⟨rfl, rfl⟩ | ⟨-, ht⟩
      · rw [if_pos rfl, h.new _ _ hnone]
        rfl
      · rw [if_neg (hne _ _ ht)]
        exact h.sets p' t w ht
    · intro p' t w ht
      refine (getElem?_push h.lastAddr_length .empty w).trans ?_
      rcases (hget p' t).mp ht with ⟨rfl, rfl⟩ | ⟨-, ht⟩
      · rw [if_pos rfl, h.new _ _ hnone]
        rfl
      · rw [if_neg (hne _ _ ht)]
        exact h.last p' t w ht
    · intro p' w hp'
      refine h.new p' w ?_
      change (st.pids.set p st.vid).get? p' = none at hp'
      rw [Dict.get?_set] at hp'
      split_ifs at hp'
      exact hp'
    · intro q c j hq
      obtain ⟨t, ht, hreq⟩ := h.reqs_some q c j hq
      exact ⟨t, (hget _ _).mpr (.inr ⟨hother ht, ht⟩), hreq⟩

/-- A change of one class shows at the index of that class only. -/
theorem Sim.apply (h : Sim st a) {d : Change} {t : ℕ} (ht : st.pids.get? d.cls.1 = some t)
    (hmet : ∀ p, d.met = some p → p = d.cls.1) (howner : ∀ o, d.owner = some o → o.1 = d.cls)
    (hvid : st'.vid = st.vid) (hpids : st'.pids = st.pids)
    (hios : st'.ios = st.ios.set (idxOf t d.cls.2) d.cell.sets)
    (hlast : st'.lastAddr = st.lastAddr.set (idxOf t d.cls.2) d.cell.last)
    (hnum : st'.numIos = st.numIos + d.count)
    (hreqs : ∀ q, st'.reqs.get? q = if q = d.request then
      d.owner.map fun o ↦ (idxOf t d.cls.2, o.2) else st.reqs.get? q) : Sim st' (d.apply a) := by
  have hlt := idxOf_lt (h.pids_lt _ _ ht) d.cls.2
  have hcell : ∀ p t' w, st.pids.get? p = some t' →
      (idxOf t d.cls.2 = idxOf t' w ↔ (p, w) = d.cls) := by
    intro p t' w hp
    constructor
    · intro he
      obtain ⟨rfl, rfl⟩ := idxOf_inj he
      exact Prod.ext (h.pids_inj _ _ _ hp ht) rfl
    · rintro he
      rw [← he] at ht ⊢
      rw [ht] at hp
      cases hp
      rfl
  refine ⟨?_, ?_, ?_, ?_, ?_, ?_, ?_, ?_, ?_, ?_, ?_, ?_⟩
  · rw [hios, List.length_set, hvid, h.ios_length]
  · rw [hlast, List.length_set, hvid, h.lastAddr_length]
  · rw [hnum, h.numIos]
    rfl
  · intro p
    rw [hpids]
    change (a.met p || decide (d.met = some p)) = _
    by_cases hp : d.met = some p
    · rw [decide_eq_true hp, Bool.or_true, hmet p hp, ht]
      rfl
    · simp [hp, h.met]
  · rw [hpids, hvid]
    exact h.pids_lt
  · rw [hpids]
    exact h.pids_inj
  · rw [hpids, hvid]
    exact h.pids_surj
  · intro p t' w hp
    rw [hpids] at hp
    change _ = some (Function.update a.cells d.cls d.cell (p, w)).sets
    rw [hios, List.getElem?_set, Function.update_apply]
    by_cases he : (p, w) = d.cls
    · rw [if_pos ((hcell p t' w hp).mpr he), if_pos he, if_pos (by rw [h.ios_length]; exact hlt)]
    · rw [if_neg fun hc ↦ he ((hcell p t' w hp).mp hc), if_neg he, h.sets p t' w hp]
  · intro p t' w hp
    rw [hpids] at hp
    change _ = some (Function.update a.cells d.cls d.cell (p, w)).last
    rw [hlast, List.getElem?_set, Function.update_apply]
    by_cases he : (p, w) = d.cls
    · rw [if_pos ((hcell p t' w hp).mpr he), if_pos he,
        if_pos (by rw [h.lastAddr_length]; exact hlt)]
    · rw [if_neg fun hc ↦ he ((hcell p t' w hp).mp hc), if_neg he, h.last p t' w hp]
  · intro p w hp
    rw [hpids] at hp
    change Function.update a.cells d.cls d.cell (p, w) = _
    rw [Function.update_of_ne, h.new p w hp]
    rintro he
    rw [← he, hp] at ht
    cases ht
  · intro q hq
    change Function.update a.reqs d.request d.owner q = none at hq
    rw [Function.update_apply] at hq
    rw [hreqs]
    split_ifs at hq ⊢
    · rw [hq, Option.map_none]
    · exact h.reqs_none q hq
  · intro q c j hq
    change Function.update a.reqs d.request d.owner q = some (c, j) at hq
    rw [Function.update_apply] at hq
    rw [hreqs, hpids]
    split_ifs at hq ⊢
    · have hc : c = d.cls := howner _ hq
      rw [hc]
      exact ⟨t, ht, by rw [hq, Option.map_some]⟩
    · exact h.reqs_some q c j hq

section Steps

variable {idx : ℕ} {c : Cell}

theorem set_self {α : Type*} {xs : List α} {x : α} (h : xs[idx]? = some x) :
    xs.set idx x = xs := by
  obtain ⟨hlt, rfl⟩ := List.getElem?_eq_some_iff.mp h
  exact List.set_getElem_self hlt

theorem newIo_cell (hs : st.ios[idx]? = some c.sets) (hl : st.lastAddr[idx]? = some c.last)
    (r : Record) : ∃ st', newIo st idx r = .ok st' ∧ st'.vid = st.vid ∧ st'.pids = st.pids ∧
      st'.reqs = st.reqs ∧ st'.numIos = st.numIos + (c.enter r).2 ∧
      st'.ios = st.ios.set idx (c.enter r).1.sets ∧
      st'.lastAddr = st.lastAddr.set idx (c.enter r).1.last := by
  unfold newIo Cell.enter
  rw [item_ok hs, item_ok hl]
  simp only [bind, Except.bind, pure, Except.pure]
  split_ifs
  · refine ⟨st, rfl, rfl, rfl, rfl, (Int.add_zero _).symm, ?_, ?_⟩
    · exact (set_self hs).symm
    · exact (set_self hl).symm
  · exact ⟨_, rfl, rfl, rfl, rfl, rfl, rfl, rfl⟩

theorem addRequest_cell (hs : st.ios[idx]? = some c.sets) (hl : st.lastAddr[idx]? = some c.last)
    (r : Record) : addRequest st idx r = (c.join r).map fun p ↦ { st with
      ios := st.ios.set idx p.1.sets
      lastAddr := st.lastAddr.set idx p.1.last
      reqs := st.reqs.set r.request (idx, p.2) } := by
  unfold addRequest Cell.join
  rw [item_ok hs, item_ok hl]
  simp only [bind, Except.bind, pure, Except.pure]
  cases key c.last r.startAddr with
  | error e => rfl
  | ok j =>
    cases hj : item c.sets j with
    | error e => simp only [hj]; rfl
    | ok s =>
      simp only [hj]
      split_ifs
      · rfl
      · rfl

theorem complete_cell (hs : st.ios[idx]? = some c.sets) (hl : st.lastAddr[idx]? = some c.last)
    {j : ℕ} (hr : st.reqs.get? r.request = some (idx, j)) (hdir : idx % 2 = if r.write then 1 else 0)
    (hread : r.read = !r.write) :
    match c.leave r j with
    | .error e => complete st r = .error e
    | .ok p => ∃ st', complete st r = .ok st' ∧ st'.vid = st.vid ∧ st'.pids = st.pids ∧
        st'.reqs = st.reqs.erase r.request ∧ st'.numIos = st.numIos + p.2 ∧
        st'.ios = st.ios.set idx p.1.sets ∧ st'.lastAddr = st.lastAddr.set idx p.1.last := by
  have hok : (!(r.read && idx % 2 = 0 || r.write && idx % 2 = 1)) = false := by
    rw [hread, hdir]
    cases r.write <;> rfl
  unfold complete Cell.leave
  simp only [hr, hok, item_ok hs, item_ok hl, bind, Except.bind, pure, Except.pure,
    Bool.false_eq_true, if_false]
  cases hj : item c.sets j with
  | error e => rfl
  | ok s =>
    by_cases hm : r.request ∈ s
    · simp only [hm, not_true_eq_false, if_false]
      by_cases he : s.erase r.request = ∅
      · simp only [he, if_true]
        exact ⟨_, rfl, rfl, rfl, rfl, Int.sub_eq_add_neg, rfl, rfl⟩
      · simp only [he, if_false]
        exact ⟨_, rfl, rfl, rfl, rfl, (Int.add_zero _).symm, rfl, (set_self hl).symm⟩
    · simp only [hm, not_false_eq_true, if_true]
      rfl

end Steps

theorem apply_met (d : Change) {p : ℤ} (hp : d.met = some p) :
    d.apply { a with met := fun p' ↦ a.met p' || some p = some p' } = d.apply a := by
  simp [Change.apply, hp]

theorem Sim.issue (h : Sim st a) (r : Record) :
    match issued a r with
    | .error e => issue st r = .error e
    | .ok d => ∃ st', issue st r = .ok st' ∧ Sim st' (d.apply a) := by
  obtain ⟨h₁, hreqs₁, t, ht⟩ := h.meet r.pid
  generalize hst₁ : addPid st r.pid = st₁ at h₁ hreqs₁ ht
  have hs := h₁.sets r.pid t r.write ht
  have hl := h₁.last r.pid t r.write ht
  have hlt := idxOf_lt (h₁.pids_lt _ _ ht) r.write
  obtain ⟨st₂, hnew, hvid, hpids, hreqs, hnum, hios, hlast⟩ := newIo_cell hs hl r
  have hs₂ : st₂.ios[idxOf t r.write]? =
      some ((a.cells (r.pid, r.write)).enter r).1.sets := by
    rw [hios, List.getElem?_set_self (by rw [h₁.ios_length]; exact hlt)]
  have hl₂ : st₂.lastAddr[idxOf t r.write]? =
      some ((a.cells (r.pid, r.write)).enter r).1.last := by
    rw [hlast, List.getElem?_set_self (by rw [h₁.lastAddr_length]; exact hlt)]
  have hadd := addRequest_cell hs₂ hl₂ r
  have hissue : Analyser.issue st r = addRequest st₂ (idxOf t r.write) r := by
    unfold Analyser.issue
    simp only [hst₁, key_ok ht, bind, Except.bind]
    change (newIo st₁ (idxOf t r.write) r).bind _ = _
    rw [hnew]
    rfl
  rw [hissue, hadd]
  unfold issued
  simp only [bind, Except.bind, pure, Except.pure]
  cases hj : ((a.cells (r.pid, r.write)).enter r).1.join r with
  | error e => rfl
  | ok p =>
    obtain ⟨cell, j⟩ := p
    refine ⟨_, rfl, ?_⟩
    rw [← apply_met (p := r.pid) _ rfl]
    refine h₁.apply ht (fun p hp ↦ (Option.some.inj hp).symm) ?_ hvid hpids ?_ ?_ hnum fun q ↦ ?_
    · intro o ho
      cases ho
      rfl
    · simp only [hios, List.set_set]
    · simp only [hlast, List.set_set]
    · simp only [hreqs, Dict.get?_set]
      rfl

theorem Sim.complete (h : Sim st a) (hr : r.ignored = false) {c : Class} {j : ℕ}
    (hq : a.reqs r.request = some (c, j)) :
    match completed a r c j with
    | .error e => complete st r = .error e
    | .ok d => ∃ st', complete st r = .ok st' ∧ Sim st' (d.apply a) := by
  obtain ⟨t, ht, hreq⟩ := h.reqs_some _ _ _ hq
  have hread := read_of_not_ignored hr
  unfold completed
  by_cases hw : r.write = c.2
  · rw [if_neg fun hc ↦ hc hw]
    have hcell := complete_cell (h.sets _ t c.2 ht) (h.last _ t c.2 ht) hreq
      (by rw [hw]; exact idxOf_mod t c.2) hread
    simp only [bind, Except.bind, pure, Except.pure]
    change match (a.cells c).leave r j with
      | .error e => _
      | .ok p => _ at hcell
    cases hl : (a.cells c).leave r j with
    | error e =>
      rw [hl] at hcell
      exact hcell
    | ok p =>
      rw [hl] at hcell
      obtain ⟨st', hok, hvid, hpids, hreqs, hnum, hios, hlast⟩ := hcell
      refine ⟨st', hok, h.apply ht ?_ ?_ hvid hpids hios hlast hnum fun q ↦ ?_⟩
      · simp
      · simp
      · rw [hreqs, Dict.get?_erase]
        rfl
  · rw [if_pos hw]
    have hdir : (!(r.read && idxOf t c.2 % 2 = 0 || r.write && idxOf t c.2 % 2 = 1)) = true := by
      rw [hread, idxOf_mod]
      revert hw
      cases r.write <;> cases c.2 <;> simp
    unfold Analyser.complete
    simp only [hreq, hdir, if_true]
    rfl

variable (follows) in
/-- A line does to the script's state what its change does to the threads. -/
theorem Sim.handle (h : Sim st a) (hr : r.ignored = false) :
    match plan follows a r with
    | .error e => handle follows st r = .error e
    | .ok none => handle follows st r = .ok st
    | .ok (some d) => ∃ st', handle follows st r = .ok st' ∧ Sim st' (d.apply a) := by
  unfold plan Analyser.handle
  cases r.event with
  | issued =>
    by_cases hf : follows r.name = true
    · have hi := h.issue r
      simp only [hf, if_true]
      cases hd : issued a r with
      | error e =>
        rw [hd] at hi
        exact hi
      | ok d =>
        rw [hd] at hi
        exact hi
    · simp only [hf]
      rfl
  | completed =>
    cases hq : a.reqs r.request with
    | none =>
      simp only [Analyser.complete, h.reqs_none _ hq]
      rfl
    | some p =>
      have hc := h.complete hr hq
      cases hd : completed a r p.1 p.2 with
      | error e =>
        rw [hd] at hc
        simp only [hd]
        exact hc
      | ok d =>
        rw [hd] at hc
        simp only [hd]
        exact hc
  | other => rfl

end MqssdModel.Trace.ByThread
