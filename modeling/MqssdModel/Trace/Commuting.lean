import Mathlib.Data.Finset.Card
import Mathlib.Data.Finset.Range
import Mathlib.Data.Set.Function
import Mathlib.Order.Interval.Set.Defs
import MqssdModel.Trace.ByThread

namespace MqssdModel.Trace.Commuting

open Data.OrderedDict Analyser ByThread

/-- The thread and direction that an event belongs to: those of the line for an issued request,
those that the request map leads to for a completion. -/
def Belongs (st : State) (r : Record) (c : ByThread.Class) : Prop :=
  match r.event with
  | .issued => c = (r.pid, r.write)
  | .completed => ∃ t j, st.pids.get? c.1 = some t ∧ st.reqs.get? r.request = some (idxOf t c.2, j)
  | .other => False

def Independent (st : State) (r₁ r₂ : Record) : Prop :=
  r₁.request ≠ r₂.request ∧ ∀ c, ¬ (Belongs st r₁ c ∧ Belongs st r₂ c)

/-- The second state is the first one with its threads renumbered by `σ`. -/
structure Renumbered (σ : ℕ → ℕ) (st st' : State) : Prop where
  numIos : st'.numIos = st.numIos
  vid : st'.vid = st.vid
  bij : Set.BijOn σ (Set.Iio st.vid) (Set.Iio st.vid)
  pids : ∀ p, st'.pids.get? p = (st.pids.get? p).map σ
  reqs : ∀ q, st'.reqs.get? q = (st.reqs.get? q).map fun io ↦ (idxOf (σ (io.1 / 2)) (io.1 % 2 = 1), io.2)
  ios_length : st'.ios.length = st.ios.length
  ios : ∀ t < st.vid, ∀ w, st'.ios[idxOf (σ t) w]? = st.ios[idxOf t w]?
  lastAddr_length : st'.lastAddr.length = st.lastAddr.length
  lastAddr : ∀ t < st.vid, ∀ w, st'.lastAddr[idxOf (σ t) w]? = st.lastAddr[idxOf t w]?

/-- Both runs abort, or neither and they end in the same state but for the thread ids. -/
def Agree : Except Abort State → Except Abort State → Prop
  | .ok st, .ok st' => ∃ σ, Renumbered σ st st'
  | .error _, .error _ => True
  | _, _ => False

section Abstract

variable {follows : String → Bool} {a b : Threads} {r r₁ r₂ : Record} {d d₁ d₂ : Change}

def applied : Option Change → Threads → Threads
  | none, a => a
  | some d, a => d.apply a

def step (follows : String → Bool) (a : Threads) (r : Record) : Except Abort Threads := do
  let o ← plan follows a r
  return applied o a

def classAt (a : Threads) (r : Record) : Option ByThread.Class :=
  match r.event with
  | .issued => some (r.pid, r.write)
  | .completed => (a.reqs r.request).map Prod.fst
  | .other => none

theorem issued_spec (h : issued a r = .ok d) : d.cls = (r.pid, r.write) ∧ d.request = r.request := by
  obtain ⟨p, -, h⟩ := bind_eq_ok.mp h
  cases h
  exact ⟨rfl, rfl⟩

theorem completed_spec {c : ByThread.Class} {j : ℕ} (h : completed a r c j = .ok d) :
    d.cls = c ∧ d.request = r.request := by
  unfold completed at h
  split_ifs at h
  · cases h
  · obtain ⟨p, -, h⟩ := bind_eq_ok.mp h
    cases h
    exact ⟨rfl, rfl⟩

theorem map_some_eq_ok {x : Except Abort Change} (h : (some <$> x) = .ok (some d)) : x = .ok d := by
  cases x with
  | error e => cases h
  | ok d' =>
    cases h
    rfl

theorem plan_spec (h : plan follows a r = .ok (some d)) :
    classAt a r = some d.cls ∧ d.request = r.request := by
  unfold plan at h
  unfold classAt
  cases he : r.event with
  | issued =>
    simp only [he] at h
    split_ifs at h
    · obtain ⟨hc, hq⟩ := issued_spec (map_some_eq_ok h)
      exact ⟨congrArg some hc.symm, hq⟩
    · cases h
  | completed =>
    simp only [he] at h
    cases hq : a.reqs r.request with
    | none =>
      simp only [hq] at h
      cases h
    | some p =>
      simp only [hq] at h
      obtain ⟨hc, hq'⟩ := completed_spec (map_some_eq_ok h)
      exact ⟨congrArg some hc.symm, hq'⟩
  | other =>
    simp only [he] at h
    cases h

/-- A change of another class and request is not seen. -/
theorem plan_apply (hq : d.request ≠ r.request) (hc : classAt a r ≠ some d.cls) :
    plan follows (d.apply a) r = plan follows a r := by
  have hreq : (d.apply a).reqs r.request = a.reqs r.request := Function.update_of_ne hq.symm _ _
  unfold classAt at hc
  unfold plan
  cases he : r.event with
  | issued =>
    simp only [he] at hc
    have hcell : (d.apply a).cells (r.pid, r.write) = a.cells (r.pid, r.write) :=
      Function.update_of_ne (fun h ↦ hc (congrArg some h)) _ _
    simp only [issued, hcell]
  | completed =>
    simp only [he] at hc
    rw [hreq]
    cases hp : a.reqs r.request with
    | none => rfl
    | some p =>
      rw [hp] at hc
      have hcell : (d.apply a).cells p.1 = a.cells p.1 :=
        Function.update_of_ne (fun h ↦ hc (congrArg some h)) _ _
      simp only [completed, hcell]
  | other => rfl

theorem apply_comm (hc : d₁.cls ≠ d₂.cls) (hq : d₁.request ≠ d₂.request) :
    d₂.apply (d₁.apply a) = d₁.apply (d₂.apply a) := by
  unfold Change.apply
  congr 1
  · exact Int.add_right_comm _ _ _
  · funext p
    exact Bool.or_right_comm _ _ _
  · exact Function.update_comm hc _ _ _
  · exact Function.update_comm hq _ _ _

theorem plan_applied {o : Option Change} (ho : plan follows a r₁ = .ok o)
    (hq : r₁.request ≠ r₂.request) (hc : ∀ c, classAt a r₁ = some c → classAt a r₂ ≠ some c) :
    plan follows (applied o a) r₂ = plan follows a r₂ := by
  cases o with
  | none => rfl
  | some d =>
    obtain ⟨hcls, hreq⟩ := plan_spec ho
    exact plan_apply (hreq ▸ hq) (hc _ hcls)

theorem step_step (hq : r₁.request ≠ r₂.request)
    (hc : ∀ c, classAt a r₁ = some c → classAt a r₂ ≠ some c) :
    (step follows a r₁ >>= (step follows · r₂)) = (do
      let o₁ ← plan follows a r₁
      let o₂ ← plan follows a r₂
      return applied o₂ (applied o₁ a)) := by
  unfold step
  cases h₁ : plan follows a r₁ with
  | error e => rfl
  | ok o =>
    simp only [bind, Except.bind, pure, Except.pure, plan_applied h₁ hq hc]

theorem applied_comm {o₁ o₂ : Option Change} (h₁ : plan follows a r₁ = .ok o₁)
    (h₂ : plan follows a r₂ = .ok o₂) (hq : r₁.request ≠ r₂.request)
    (hc : ∀ c, classAt a r₁ = some c → classAt a r₂ ≠ some c) :
    applied o₂ (applied o₁ a) = applied o₁ (applied o₂ a) := by
  cases o₁ with
  | none => rfl
  | some d₁ =>
    cases o₂ with
    | none => rfl
    | some d₂ =>
      obtain ⟨hcls₁, hreq₁⟩ := plan_spec h₁
      obtain ⟨hcls₂, hreq₂⟩ := plan_spec h₂
      exact apply_comm (fun h ↦ hc _ hcls₁ (h ▸ hcls₂)) (by rw [hreq₁, hreq₂]; exact hq)

/-- Two runs fail both, or end in the same threads. -/
def Same (x y : Except Abort Threads) : Prop :=
  (∃ e e', x = .error e ∧ y = .error e') ∨ ∃ b, x = .ok b ∧ y = .ok b

theorem same_refl (x : Except Abort Threads) : Same x x := by
  cases x with
  | error e => exact .inl ⟨e, e, rfl, rfl⟩
  | ok b => exact .inr ⟨b, rfl, rfl⟩

variable (follows) in
/-- Events of different classes and requests commute. -/
theorem step_comm (hq : r₁.request ≠ r₂.request)
    (hc : ∀ c, classAt a r₁ = some c → classAt a r₂ ≠ some c) :
    Same (step follows a r₁ >>= (step follows · r₂)) (step follows a r₂ >>= (step follows · r₁)) := by
  rw [step_step hq hc, step_step hq.symm fun c h h' ↦ hc c h' h]
  cases h₁ : plan follows a r₁ with
  | error e₁ =>
    cases plan follows a r₂ with
    | error e₂ => exact .inl ⟨_, _, rfl, rfl⟩
    | ok o₂ => exact .inl ⟨_, _, rfl, rfl⟩
  | ok o₁ =>
    cases h₂ : plan follows a r₂ with
    | error e₂ => exact .inl ⟨_, _, rfl, rfl⟩
    | ok o₂ => exact .inr ⟨_, rfl, congrArg Except.ok (applied_comm h₁ h₂ hq hc).symm⟩

theorem Same.bind {x y : Except Abort Threads} (h : Same x y)
    (f : Threads → Except Abort Threads) : Same (x >>= f) (y >>= f) := by
  rcases h with ⟨e, e', rfl, rfl⟩ | ⟨b, rfl, rfl⟩
  · exact .inl ⟨e, e', rfl, rfl⟩
  · exact same_refl (f b)

end Abstract

section Refinement

variable {follows : String → Bool} {a : Threads} {st st' : State} {r : Record} {rs : List Record}

variable (follows) in
theorem sim_step (h : Sim st a) (hr : r.ignored = false) :
    match step follows a r with
    | .error e => handle follows st r = .error e
    | .ok b => ∃ st', handle follows st r = .ok st' ∧ Sim st' b := by
  have hs := Sim.handle follows h hr
  unfold step
  cases hp : plan follows a r with
  | error e =>
    rw [hp] at hs
    exact hs
  | ok o =>
    rw [hp] at hs
    cases o with
    | none => exact ⟨st, hs, h⟩
    | some d => exact hs

variable (follows) in
theorem sim_run (h : Sim st a) (hr : ∀ r ∈ rs, r.ignored = false) :
    match rs.foldlM (step follows) a with
    | .error e => rs.foldlM (handle follows) st = .error e
    | .ok b => ∃ st', rs.foldlM (handle follows) st = .ok st' ∧ Sim st' b := by
  induction rs generalizing st a with
  | nil => exact ⟨st, rfl, h⟩
  | cons r rs ih =>
    have hs := sim_step follows h (hr r List.mem_cons_self)
    rw [List.foldlM_cons, List.foldlM_cons]
    cases hstep : step follows a r with
    | error e =>
      rw [hstep] at hs
      simp only [hs]
      rfl
    | ok b =>
      rw [hstep] at hs
      obtain ⟨st₁, hok, hsim⟩ := hs
      simp only [hok]
      exact ih hsim fun r' h' ↦ hr r' (List.mem_cons_of_mem r h')

theorem exists_renumbering (h : Sim st a) (h' : Sim st' a) :
    ∃ σ : ℕ → ℕ, ∀ p t, st.pids.get? p = some t → st'.pids.get? p = some (σ t) := by
  have hex : ∀ t, ∃ t', ∀ p, st.pids.get? p = some t → st'.pids.get? p = some t' := by
    intro t
    by_cases ht : ∃ p, st.pids.get? p = some t
    · obtain ⟨p, hp⟩ := ht
      have hmet : (st'.pids.get? p).isSome = true := by
        rw [← h'.met, h.met, hp]
        rfl
      obtain ⟨t', ht'⟩ := Option.isSome_iff_exists.mp hmet
      exact ⟨t', fun p' hp' ↦ h.pids_inj p p' t hp hp' ▸ ht'⟩
    · exact ⟨0, fun p hp ↦ absurd ⟨p, hp⟩ ht⟩
  exact ⟨_, fun p t ↦ (Classical.choose_spec (hex t)) p⟩

theorem vid_le (h : Sim st a) (h' : Sim st' a) : st.vid ≤ st'.vid := by
  obtain ⟨σ, hσ⟩ := exists_renumbering h h'
  have hcard := Finset.card_le_card_of_injOn (s := Finset.range st.vid)
    (t := Finset.range st'.vid) σ ?_ ?_
  · simpa only [Finset.card_range] using hcard
  · intro t ht
    obtain ⟨p, hp⟩ := h.pids_surj t (Finset.mem_range.mp ht)
    exact Finset.mem_coe.mpr (Finset.mem_range.mpr (h'.pids_lt p _ (hσ p t hp)))
  · intro t ht u hu he
    obtain ⟨p, hp⟩ := h.pids_surj t (Finset.mem_range.mp ht)
    obtain ⟨p', hp'⟩ := h.pids_surj u (Finset.mem_range.mp hu)
    have hpp := h'.pids_inj p p' (σ t) (hσ p t hp) (he ▸ hσ p' u hp')
    rw [← hpp, hp] at hp'
    exact Option.some.inj hp'

/-- Two states of the script with the same threads differ in the numbers of the threads only. -/
theorem renumbered (h : Sim st a) (h' : Sim st' a) : ∃ σ, Renumbered σ st st' := by
  obtain ⟨σ, hσ⟩ := exists_renumbering h h'
  have hvid : st'.vid = st.vid := Nat.le_antisymm (vid_le h' h) (vid_le h h')
  have hnone : ∀ p, st.pids.get? p = none → st'.pids.get? p = none := by
    intro p hp
    have hmet := h'.met p
    rw [h.met, hp] at hmet
    simpa using hmet.symm
  refine ⟨σ, h'.numIos.trans h.numIos.symm, hvid, ⟨?_, ?_, ?_⟩, ?_, ?_, ?_, ?_, ?_, ?_⟩
  · intro t ht
    obtain ⟨p, hp⟩ := h.pids_surj t ht
    rw [← hvid]
    exact h'.pids_lt p _ (hσ p t hp)
  · intro t ht u hu he
    obtain ⟨p, hp⟩ := h.pids_surj t ht
    obtain ⟨p', hp'⟩ := h.pids_surj u hu
    have hpp := h'.pids_inj p p' (σ t) (hσ p t hp) (he ▸ hσ p' u hp')
    rw [← hpp, hp] at hp'
    exact Option.some.inj hp'
  · intro t' ht'
    obtain ⟨p, hp⟩ := h'.pids_surj t' (hvid ▸ ht')
    cases ht : st.pids.get? p with
    | none =>
      rw [hnone p ht] at hp
      cases hp
    | some t =>
      refine ⟨t, h.pids_lt p t ht, ?_⟩
      rw [hσ p t ht] at hp
      exact Option.some.inj hp
  · intro p
    cases hp : st.pids.get? p with
    | none => rw [hnone p hp, Option.map_none]
    | some t => rw [hσ p t hp, Option.map_some]
  · intro q
    cases hq : a.reqs q with
    | none => rw [h.reqs_none q hq, h'.reqs_none q hq, Option.map_none]
    | some o =>
      obtain ⟨t, ht, hreq⟩ := h.reqs_some q o.1 o.2 hq
      obtain ⟨t', ht', hreq'⟩ := h'.reqs_some q o.1 o.2 hq
      rw [hσ _ t ht] at ht'
      cases ht'
      have hdiv : idxOf t o.1.2 / 2 = t := by unfold idxOf; split_ifs <;> omega
      have hmod : decide (idxOf t o.1.2 % 2 = 1) = o.1.2 := by
        rw [idxOf_mod]
        cases o.1.2 <;> rfl
      rw [hreq, hreq', Option.map_some, hdiv, hmod]
  · rw [h.ios_length, h'.ios_length, hvid]
  · intro t ht w
    obtain ⟨p, hp⟩ := h.pids_surj t ht
    rw [h.sets p t w hp, h'.sets p _ w (hσ p t hp)]
  · rw [h.lastAddr_length, h'.lastAddr_length, hvid]
  · intro t ht w
    obtain ⟨p, hp⟩ := h.pids_surj t ht
    rw [h.last p t w hp, h'.last p _ w (hσ p t hp)]

theorem agree_of_same {rs' : List Record} (hr : ∀ r ∈ rs, r.ignored = false)
    (hr' : ∀ r ∈ rs', r.ignored = false)
    (h : Same (rs.foldlM (step follows) .start) (rs'.foldlM (step follows) .start)) :
    Agree (rs.foldlM (handle follows) start) (rs'.foldlM (handle follows) start) := by
  have hs := sim_run follows sim_start hr
  have hs' := sim_run follows sim_start hr'
  rcases h with ⟨e, e', he, he'⟩ | ⟨b, hb, hb'⟩
  · rw [he] at hs
    rw [he'] at hs'
    rw [hs, hs']
    trivial
  · rw [hb] at hs
    rw [hb'] at hs'
    obtain ⟨st, hok, hsim⟩ := hs
    obtain ⟨st', hok', hsim'⟩ := hs'
    rw [hok, hok']
    exact renumbered hsim hsim'

theorem belongs_of_classAt (h : Sim st a) {c : ByThread.Class} (hc : classAt a r = some c) :
    Belongs st r c := by
  unfold classAt at hc
  unfold Belongs
  cases he : r.event with
  | issued =>
    simp only [he] at hc
    exact (Option.some.inj hc).symm
  | completed =>
    simp only [he] at hc
    obtain ⟨⟨c', j⟩, hq, rfl⟩ := Option.map_eq_some_iff.mp hc
    obtain ⟨t, ht, hreq⟩ := h.reqs_some _ _ _ hq
    exact ⟨t, j, ht, hreq⟩
  | other =>
    simp only [he] at hc
    cases hc

/-- Swapping independent events anywhere in a run makes no difference to the threads. -/
theorem same_swap {pre post : List Record} {r₁ r₂ : Record} (hr : ∀ r ∈ pre, r.ignored = false)
    (hind : ∀ st, pre.foldlM (handle follows) start = .ok st → Independent st r₁ r₂) :
    Same ((pre ++ r₁ :: r₂ :: post).foldlM (step follows) .start)
      ((pre ++ r₂ :: r₁ :: post).foldlM (step follows) .start) := by
  have hpre := sim_run follows sim_start hr
  rw [List.foldlM_append, List.foldlM_append]
  cases ha : pre.foldlM (step follows) .start with
  | error e => exact .inl ⟨e, e, rfl, rfl⟩
  | ok a =>
    rw [ha] at hpre
    obtain ⟨st, hok, hsim⟩ := hpre
    obtain ⟨hq, hc⟩ := hind st hok
    have hcomm := step_comm follows hq fun c h₁ h₂ ↦
      hc c ⟨belongs_of_classAt hsim h₁, belongs_of_classAt hsim h₂⟩
    have hpost := hcomm.bind fun b ↦ post.foldlM (step follows) b
    change Same ((r₁ :: r₂ :: post).foldlM (step follows) a)
      ((r₂ :: r₁ :: post).foldlM (step follows) a)
    simpa only [List.foldlM_cons, bind_assoc] using hpost

end Refinement

theorem tracked_append (pre : List Line) : (∀ post, tracked (pre ++ post) = tracked pre) ∨
    ∀ post, tracked (pre ++ post) = tracked pre ++ tracked post := by
  induction pre with
  | nil => exact .inr fun _ ↦ rfl
  | cons l pre ih =>
    cases l with
    | cpu => exact .inl fun _ ↦ rfl
    | blank => exact ih
    | kworker => exact ih
    | record r =>
      simp only [List.cons_append, tracked]
      split_ifs
      · exact ih
      · exact ih.imp (fun h post ↦ congrArg (r :: ·) (h post))
          fun h post ↦ congrArg (r :: ·) (h post)

/-- Two adjacent events of different requests and of different threads or directions can change
places: at every later line the script has aborted in both orders or in neither, and if it has
not, the counter is the same and the maps are the same up to the numbers of the threads. -/
theorem agree_swap (pre post : List Line) (r₁ r₂ : Record)
    (hind : ∀ st, parseTrace pre = .ok st → Independent st r₁ r₂) (n : ℕ) :
    Agree (parseTrace (pre ++ .record r₁ :: .record r₂ :: post.take n))
      (parseTrace (pre ++ .record r₂ :: .record r₁ :: post.take n)) := by
  unfold parseTrace at hind ⊢
  simp only [analyse_eq] at hind ⊢
  refine agree_of_same (fun _ h ↦ not_ignored_of_mem h) (fun _ h ↦ not_ignored_of_mem h) ?_
  rcases tracked_append pre with h | h
  · rw [h, h]
    exact same_refl _
  · rw [h, h]
    simp only [tracked]
    by_cases h₁ : r₁.ignored = true
    · simp only [h₁, if_true]
      exact same_refl _
    · by_cases h₂ : r₂.ignored = true
      · simp only [h₂, if_true]
        exact same_refl _
      · simp only [h₁, h₂]
        exact same_swap (fun _ hr ↦ not_ignored_of_mem hr) hind

theorem agree_swap_new_threads :
    Agree (parseTrace [.record ⟨"0.0", 1, .issued, ['R'], 8, 8, "a"⟩,
      .record ⟨"0.1", 2, .issued, ['R'], 16, 8, "b"⟩])
    (parseTrace [.record ⟨"0.1", 2, .issued, ['R'], 16, 8, "b"⟩,
      .record ⟨"0.0", 1, .issued, ['R'], 8, 8, "a"⟩]) := by
  refine agree_swap [] [] _ _ (fun st _ ↦ ⟨by decide, ?_⟩) 0
  rintro c ⟨h₁, h₂⟩
  change c = (1, false) at h₁
  change c = (2, false) at h₂
  rw [h₁] at h₂
  exact absurd h₂ (by decide)

end MqssdModel.Trace.Commuting
