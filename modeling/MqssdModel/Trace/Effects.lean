import MqssdModel.Trace.Slots

namespace MqssdModel.Trace.Effects

open Data.OrderedDict Analyser Slots

/-- The in-flight counter and the four maps agree. -/
structure Accounted (st : State) : Prop where
  ios_length : st.ios.length = 2 * st.vid
  lastAddr_length : st.lastAddr.length = 2 * st.vid
  pids_lt : ∀ p t, st.pids.get? p = some t → t < st.vid
  numIos : st.numIos = openIos st.ios
  last_open : ∀ i a j, last st i a = some j → slot st i j ≠ ∅
  last_inj : ∀ i a b j, last st i a = some j → last st i b = some j → a = b
  reqs_mem : ∀ q i j, st.reqs.get? q = some (i, j) → q ∈ slot st i j

theorem accounted_start : Accounted start where
  ios_length := rfl
  lastAddr_length := rfl
  pids_lt p t h := by simp [start] at h
  numIos := rfl
  last_open i a j h := by simp [last, lastOf, start] at h
  last_inj i a b j h := by simp [last, lastOf, start] at h
  reqs_mem q i j h := by simp [start] at h

/-- What a request does to the maps when it joins the IO `j` of `idx`. -/
structure Issued (st : State) (r : Record) (idx j : ℕ) (st' : State) : Prop where
  parity : idx % 2 = if r.write then 1 else 0
  fresh : r.request ∉ slot st idx j
  joined : last st idx r.startAddr = some j ∨
    last st idx r.startAddr = none ∧ slot st idx j = ∅ ∧ ∀ a, last st idx a ≠ some j
  slot_eq : ∀ i k, slot st' i k =
    if i = idx ∧ k = j then insert r.request (slot st idx j) else slot st i k
  last_eq : ∀ i a, last st' i a = if i = idx then
    if a = r.startAddr + r.offset then some j
    else if a = r.startAddr then none else last st i a
    else last st i a
  reqs_eq : st'.reqs = st.reqs.set r.request (idx, j)
  numIos_eq : st'.numIos = st.numIos + if last st idx r.startAddr = none then 1 else 0
  openIos_eq : openIos st'.ios + (if slot st idx j = ∅ then 0 else 1) = openIos st.ios + 1
  ios_length : st'.ios.length = 2 * st'.vid
  lastAddr_length : st'.lastAddr.length = 2 * st'.vid
  pids_lt : ∀ p t, st'.pids.get? p = some t → t < st'.vid

/-- What the completion of a request of the IO `j` of `idx` does to the maps. -/
structure Completed (st : State) (r : Record) (idx j : ℕ) (st' : State) : Prop where
  mem : r.request ∈ slot st idx j
  slot_eq : ∀ i k, slot st' i k =
    if i = idx ∧ k = j then (slot st idx j).erase r.request else slot st i k
  last_eq : ∀ i a, last st' i a =
    if i = idx ∧ (slot st idx j).erase r.request = ∅ ∧ last st i a = some j then none
    else last st i a
  reqs_eq : st'.reqs = st.reqs.erase r.request
  numIos_eq : st'.numIos =
    st.numIos - if (slot st idx j).erase r.request = ∅ then 1 else 0
  openIos_eq : openIos st'.ios + 1 =
    openIos st.ios + if (slot st idx j).erase r.request = ∅ then 0 else 1
  vid_eq : st'.vid = st.vid
  pids_eq : st'.pids = st.pids
  ios_length : st'.ios.length = st.ios.length
  lastAddr_length : st'.lastAddr.length = st.lastAddr.length

variable {st st' : State} {r : Record} {idx j : ℕ}

theorem Issued.accounted (h : Issued st r idx j st') (ha : Accounted st) : Accounted st' where
  ios_length := h.ios_length
  lastAddr_length := h.lastAddr_length
  pids_lt := h.pids_lt
  numIos := by
    have hopen := h.openIos_eq
    rw [h.numIos_eq, ha.numIos]
    rcases h.joined with hj | ⟨hn, he, -⟩
    · rw [if_neg (ha.last_open _ _ _ hj)] at hopen
      rw [if_neg (by simp [hj])]
      omega
    · rw [if_pos he] at hopen
      rw [if_pos hn]
      omega
  last_open i a k hk := by
    rw [h.last_eq] at hk
    rw [h.slot_eq]
    split_ifs at hk ⊢ with h₁ h₂ h₃ h₄ h₅
    all_goals first
      | exact Finset.insert_ne_empty _ _
      | exact ha.last_open i a k hk
      | simp_all
  last_inj i a b k hk hk' := by
    have hnew : ∀ c, last st i c = some j → i = idx → c ≠ r.startAddr → False := by
      rintro c hc rfl hne
      rcases h.joined with hj | ⟨-, -, hn⟩
      · exact hne (ha.last_inj _ _ _ _ hc hj)
      · exact hn c hc
    rw [h.last_eq] at hk hk'
    split_ifs at hk hk' with hi ha' hb' hb' hs hb' hb'
    · rw [ha', hb']
    · cases hk
      exact (hnew b hk' hi ‹_›).elim
    · cases hk'
      exact (hnew a hk hi ‹_›).elim
    · exact ha.last_inj _ _ _ _ hk hk'
    · exact ha.last_inj _ _ _ _ hk hk'
  reqs_mem q i k hq := by
    rw [h.reqs_eq, Dict.get?_set] at hq
    rw [h.slot_eq]
    split_ifs at hq with hqr
    · cases hq
      rw [if_pos ⟨rfl, rfl⟩, hqr]
      exact Finset.mem_insert_self _ _
    · have hm := ha.reqs_mem q i k hq
      split_ifs with hik
      · rw [hik.1, hik.2] at hm
        exact Finset.mem_insert_of_mem hm
      · exact hm

theorem Completed.accounted (h : Completed st r idx j st') (ha : Accounted st) : Accounted st' where
  ios_length := by rw [h.ios_length, h.vid_eq, ha.ios_length]
  lastAddr_length := by rw [h.lastAddr_length, h.vid_eq, ha.lastAddr_length]
  pids_lt := by rw [h.pids_eq, h.vid_eq]; exact ha.pids_lt
  numIos := by
    have hopen := h.openIos_eq
    rw [h.numIos_eq, ha.numIos]
    split_ifs at hopen ⊢ <;> omega
  last_open i a k hk := by
    rw [h.last_eq] at hk
    rw [h.slot_eq]
    split_ifs at hk ⊢ with hik hl
    · intro he
      exact hl ⟨hik.1, he, hik.2 ▸ hk⟩
    · exact ha.last_open i a k hk
  last_inj i a b k hk hk' := by
    rw [h.last_eq] at hk hk'
    split_ifs at hk hk'
    exact ha.last_inj i a b k hk hk'
  reqs_mem q i k hq := by
    rw [h.reqs_eq, Dict.get?_erase] at hq
    rw [h.slot_eq]
    split_ifs at hq with hqr
    have hm := ha.reqs_mem q i k hq
    split_ifs with hik
    · rw [hik.1, hik.2] at hm
      exact Finset.mem_erase.mpr ⟨hqr, hm⟩
    · exact hm

theorem item_ok {α : Type*} {xs : List α} {i : ℕ} {x : α} (h : xs[i]? = some x) :
    item xs i = .ok x := by
  unfold item
  rw [h]

theorem key_ok {κ ν : Type*} [DecidableEq κ] {d : Dict κ ν} {k : κ} {v : ν}
    (h : d.get? k = some v) : key d k = .ok v := by
  unfold key
  rw [h]

/-- A thread that is met for the first time comes in without IOs. -/
theorem addPid_spec (ha : Accounted st) (p : ℤ) :
    Accounted (addPid st p) ∧ slot (addPid st p) = slot st ∧ last (addPid st p) = last st ∧
      (addPid st p).reqs = st.reqs ∧ (addPid st p).numIos = st.numIos ∧
      openIos (addPid st p).ios = openIos st.ios ∧
      ∃ t, (addPid st p).pids.get? p = some t ∧ t < (addPid st p).vid := by
  unfold addPid
  by_cases hp : (st.pids.get? p).isSome
  · obtain ⟨t, ht⟩ := Option.isSome_iff_exists.mp hp
    rw [if_pos hp]
    exact ⟨ha, rfl, rfl, rfl, rfl, rfl, t, ht, ha.pids_lt p t ht⟩
  · rw [if_neg hp]
    have hslot : ∀ i j, slotOf (st.ios ++ [[], []]) i j = slotOf st.ios i j := slotOf_thread
    have hlast : ∀ i a, lastOf (st.lastAddr ++ [.empty, .empty]) i a = lastOf st.lastAddr i a :=
      lastOf_thread
    refine ⟨⟨?_, ?_, ?_, ?_, ?_, ?_, ?_⟩, funext₂ hslot, funext₂ hlast, rfl, rfl,
      openIos_thread, st.vid, ?_, Nat.lt_succ_self _⟩
    · simp only [List.length_append, List.length_cons, List.length_nil, ha.ios_length]
      omega
    · simp only [List.length_append, List.length_cons, List.length_nil, ha.lastAddr_length]
      omega
    · intro q t hq
      simp only [Dict.get?_set] at hq
      split_ifs at hq
      · cases hq
        exact Nat.lt_succ_self _
      · exact Nat.lt_succ_of_lt (ha.pids_lt q t hq)
    · rw [ha.numIos, openIos_thread]
    · intro i a j h
      exact fun he ↦ ha.last_open i a j ((hlast i a).symm.trans h) ((hslot i j).symm.trans he)
    · intro i a b j h h'
      exact ha.last_inj i a b j ((hlast i a).symm.trans h) ((hlast i b).symm.trans h')
    · intro q i j h
      rw [slot, hslot]
      exact ha.reqs_mem q i j h
    · rw [Dict.get?_set, if_pos rfl]

theorem slot_lt (h : slot st idx j ≠ ∅) {sets : List (Finset Request)}
    (hs : st.ios[idx]? = some sets) : j < sets.length := by
  by_contra hc
  refine h ?_
  rw [slot, slotOf, hs, Option.bind_some, List.getElem?_eq_none (by omega), Option.getD_none]

theorem last_eq_get? {d : Dict ℤ ℕ} (h : st.lastAddr[idx]? = some d) (a : ℤ) :
    last st idx a = d.get? a := by
  rw [last, lastOf, h, Option.bind_some]

/-- The request joins the IO that `newIo` left at its address. -/
theorem addRequest_spec {sets : List (Finset Request)} {d : Dict ℤ ℕ} {s : Finset Request}
    (hd : st.lastAddr[idx]? = some d) (hj : d.get? r.startAddr = some j)
    (hsets : st.ios[idx]? = some sets) (hs : sets[j]? = some s) :
    addRequest st idx r = if r.request ∈ s then .error .assertionError else .ok { st with
      ios := st.ios.set idx (sets.set j (insert r.request s))
      lastAddr := st.lastAddr.set idx ((d.erase r.startAddr).set (r.startAddr + r.offset) j)
      reqs := st.reqs.set r.request (idx, j) } := by
  unfold addRequest
  rw [item_ok hd, item_ok hsets]
  simp only [key_ok hj, item_ok hs, bind, Except.bind]
  split_ifs <;> rfl

/-- After `newIo` some IO ends at the address of the request. -/
theorem newIo_spec (ha : Accounted st) (hlt : idx < 2 * st.vid) (r : Record) :
    ∃ st' j d sets s, newIo st idx r = .ok st' ∧ st'.lastAddr[idx]? = some d ∧
      d.get? r.startAddr = some j ∧ st'.ios[idx]? = some sets ∧ sets[j]? = some s ∧
      (∀ i k, slot st' i k = slot st i k) ∧
      (∀ i a, (i = idx → a ≠ r.startAddr) → last st' i a = last st i a) ∧
      (last st idx r.startAddr = some j ∨
        last st idx r.startAddr = none ∧ slot st idx j = ∅ ∧ ∀ a, last st idx a ≠ some j) ∧
      st'.reqs = st.reqs ∧ st'.vid = st.vid ∧ st'.pids = st.pids ∧
      st'.ios.length = st.ios.length ∧ st'.lastAddr.length = st.lastAddr.length ∧
      openIos st'.ios = openIos st.ios ∧
      st'.numIos = st.numIos + if last st idx r.startAddr = none then 1 else 0 := by
  obtain ⟨d, hd⟩ : ∃ d, st.lastAddr[idx]? = some d :=
    ⟨_, List.getElem?_eq_getElem (by rw [ha.lastAddr_length]; exact hlt)⟩
  obtain ⟨sets, hsets⟩ : ∃ sets, st.ios[idx]? = some sets :=
    ⟨_, List.getElem?_eq_getElem (by rw [ha.ios_length]; exact hlt)⟩
  have hlast := last_eq_get? hd
  unfold newIo
  rw [item_ok hd, item_ok hsets]
  simp only [bind, Except.bind, pure, Except.pure]
  cases hj : d.get? r.startAddr with
  | some j =>
    have hopen := ha.last_open idx r.startAddr j (by rw [hlast, hj])
    have hjs := slot_lt hopen hsets
    refine ⟨st, j, d, sets, _, rfl, hd, hj, hsets, List.getElem?_eq_getElem hjs, fun _ _ ↦ rfl,
      fun _ _ _ ↦ rfl, .inl (by rw [hlast, hj]), rfl, rfl, rfl, rfl, rfl, rfl, ?_⟩
    rw [hlast, hj, if_neg (by simp)]
    omega
  | none =>
    have hnone : last st idx r.startAddr = none := by rw [hlast, hj]
    refine ⟨_, sets.length, d.set r.startAddr sets.length, sets ++ [∅], ∅, rfl, ?_, ?_, ?_, ?_,
      slotOf_push hsets, ?_, .inr ⟨hnone, ?_, ?_⟩, rfl, rfl, rfl, ?_, ?_, openIos_push hsets, ?_⟩
    · exact List.getElem?_set_self (by rw [ha.lastAddr_length]; exact hlt)
    · rw [Dict.get?_set, if_pos rfl]
    · exact List.getElem?_set_self (by rw [ha.ios_length]; exact hlt)
    · simp
    · intro i a hia
      refine (lastOf_set hd _ i a).trans ?_
      split_ifs with hi
      · rw [Dict.get?_set, if_neg (hia hi), hi, hlast]
      · rfl
    · rw [slot, slotOf, hsets, Option.bind_some, List.getElem?_eq_none le_rfl, Option.getD_none]
    · intro a hcon
      exact Nat.lt_irrefl _ (slot_lt (ha.last_open idx a _ hcon) hsets)
    · rw [List.length_set]
    · rw [List.length_set]
    · rw [if_pos hnone]

theorem issue_spec (ha : Accounted st) (r : Record) : ∃ idx j,
    (r.request ∈ slot st idx j ∧ last st idx r.startAddr = some j ∧
      issue st r = .error .assertionError) ∨
    ∃ st', issue st r = .ok st' ∧ Issued st r idx j st' := by
  obtain ⟨ha₁, hslot₁, hlast₁, hreqs₁, hnum₁, hopen₁, t, ht, htv⟩ := addPid_spec ha r.pid
  generalize hst₁ : addPid st r.pid = st₁ at ha₁ hslot₁ hlast₁ hreqs₁ hnum₁ hopen₁ ht htv
  generalize hidx : t * 2 + (if r.write then 1 else 0) = idx
  have hpar : idx % 2 = if r.write then 1 else 0 := by split_ifs at hidx ⊢ <;> omega
  have hlt : idx < 2 * st₁.vid := by split_ifs at hidx <;> omega
  obtain ⟨st₂, j, d, sets, s, hnew, hd, hj, hsets, hs, hslot, hlast, hjoin, hreqs, hvid, hpids,
    hil, hll, hopen, hnum⟩ := newIo_spec ha₁ hlt r
  have hissue : issue st r = addRequest st₂ idx r := by
    simp only [issue, hst₁, key_ok ht, bind, Except.bind, hidx, hnew]
  rw [addRequest_spec hd hj hsets hs] at hissue
  have hslots : slot st idx j = s := by
    rw [← hslot₁, ← hslot, slot, slotOf, hsets, Option.bind_some, hs, Option.getD_some]
  have hjs : j < sets.length := (List.getElem?_eq_some_iff.mp hs).1
  refine ⟨idx, j, ?_⟩
  rw [hissue, hslots]
  rw [hslot₁, hlast₁] at hjoin
  by_cases hmem : r.request ∈ s
  · refine .inl ⟨hmem, ?_, if_pos hmem⟩
    rcases hjoin with h | ⟨-, he, -⟩
    · exact h
    · rw [← hslots, he] at hmem
      exact absurd hmem (Finset.notMem_empty _)
  · rw [if_neg hmem]
    refine .inr ⟨_, rfl, hpar, hslots ▸ hmem, hjoin, ?_, ?_, ?_, ?_, ?_, ?_, ?_, ?_⟩
    · intro i k
      rw [hslots, ← hslot₁, ← hslot]
      exact slotOf_set hsets hjs _ i k
    · intro i a
      refine (lastOf_set hd _ i a).trans ?_
      rw [Dict.get?_set, Dict.get?_erase]
      split_ifs with hi hao has
      · rfl
      · rfl
      · rw [← last_eq_get? hd, hlast idx a (fun _ ↦ has), hlast₁, hi]
      · exact (hlast i a (fun h ↦ absurd h hi)).trans (by rw [hlast₁])
    · rw [hreqs, hreqs₁]
    · rw [hnum, hnum₁, hlast₁]
    · have h := openIos_set hsets hs (insert r.request s)
      rw [if_neg (Finset.insert_ne_empty _ _), hopen, hopen₁] at h
      rwa [hslots]
    · change (st₂.ios.set _ _).length = 2 * st₂.vid
      rw [List.length_set, hil, hvid, ha₁.ios_length]
    · change (st₂.lastAddr.set _ _).length = 2 * st₂.vid
      rw [List.length_set, hll, hvid, ha₁.lastAddr_length]
    · change ∀ p t, st₂.pids.get? p = some t → t < st₂.vid
      rw [hpids, hvid]
      exact ha₁.pids_lt

/-- A completion whose request is known and whose direction fits never fails. -/
theorem complete_spec (ha : Accounted st) (hr : st.reqs.get? r.request = some (idx, j))
    (hread : r.read = !r.write) :
    complete st r = .error .exit ∧ (idx % 2 ≠ if r.write then 1 else 0) ∨
    ∃ st', complete st r = .ok st' ∧ (idx % 2 = if r.write then 1 else 0) ∧
      Completed st r idx j st' := by
  have hmem := ha.reqs_mem _ _ _ hr
  have hne : slot st idx j ≠ ∅ := Finset.ne_empty_of_mem hmem
  obtain ⟨sets, hsets⟩ : ∃ sets, st.ios[idx]? = some sets := by
    cases h : st.ios[idx]? with
    | none => exact absurd (by rw [slot, slotOf, h]; rfl) hne
    | some sets => exact ⟨sets, rfl⟩
  have hjs := slot_lt hne hsets
  have hs : sets[j]? = some (slot st idx j) := by
    rw [slot, slotOf, hsets, Option.bind_some, List.getElem?_eq_getElem hjs, Option.getD_some]
  have hlt : idx < st.lastAddr.length := by
    rw [ha.lastAddr_length, ← ha.ios_length]
    exact (List.getElem?_eq_some_iff.mp hsets).1
  obtain ⟨d, hd⟩ : ∃ d, st.lastAddr[idx]? = some d := ⟨_, List.getElem?_eq_getElem hlt⟩
  have hdir : (r.read && idx % 2 = 0 || r.write && idx % 2 = 1) =
      decide (idx % 2 = if r.write then 1 else 0) := by
    rw [hread]
    cases r.write <;> simp
  unfold complete
  simp only [hr, hdir, item_ok hsets, item_ok hs, item_ok hd, bind, Except.bind, pure, Except.pure]
  by_cases hp : idx % 2 = if r.write then 1 else 0
  swap
  · exact .inl ⟨by simp [hp]; rfl, hp⟩
  refine .inr ?_
  have hopen := openIos_set hsets hs ((slot st idx j).erase r.request)
  rw [if_neg hne] at hopen
  simp only [hp, decide_true, Bool.not_true, Bool.false_eq_true, if_false, hmem,
    not_true_eq_false]
  by_cases hleft : (slot st idx j).erase r.request = ∅
  · rw [if_pos hleft]
    refine ⟨_, rfl, trivial, hmem, slotOf_set hsets hjs _, ?_, rfl, ?_, hopen, rfl, rfl,
      List.length_set, List.length_set⟩
    · intro i a
      refine (lastOf_set hd _ i a).trans ?_
      by_cases hi : i = idx
      · subst hi
        rw [if_pos rfl, Dict.get?_eraseValue, ← last_eq_get? hd]
        · simp [hleft]
        · intro a b hka hkb
          rw [← last_eq_get? hd] at hka hkb
          exact ha.last_inj _ _ _ _ hka hkb
      · simp only [hi, if_false, false_and]
        rfl
    · rw [if_pos hleft]
  · rw [if_neg hleft]
    refine ⟨_, rfl, trivial, hmem, slotOf_set hsets hjs _, ?_, rfl, ?_, hopen, rfl, rfl,
      List.length_set, rfl⟩
    · intro i a
      rw [if_neg fun h ↦ hleft h.2.1]
      rfl
    · rw [if_neg hleft]
      exact (Int.sub_zero _).symm

/-- Everything that a line can do when the script survives it. -/
theorem handle_cases {follows : String → Bool} (ha : Accounted st) (hr : r.ignored = false)
    (h : handle follows st r = .ok st') :
    st' = st ∨ (r.event = .issued ∧ ∃ idx j, Issued st r idx j st') ∨
      (r.event = .completed ∧ ∃ idx j, st.reqs.get? r.request = some (idx, j) ∧
        Completed st r idx j st') := by
  unfold handle at h
  cases he : r.event with
  | issued =>
    simp only [he] at h
    split_ifs at h
    · obtain ⟨idx, j, ⟨-, -, herr⟩ | ⟨st₁, hok, hi⟩⟩ := issue_spec ha r
      · rw [herr] at h
        cases h
      · rw [hok] at h
        cases h
        exact .inr (.inl ⟨rfl, idx, j, hi⟩)
    · cases h
      exact .inl rfl
  | completed =>
    simp only [he] at h
    cases hq : st.reqs.get? r.request with
    | none =>
      simp only [complete, hq] at h
      cases h
      exact .inl rfl
    | some p =>
      obtain ⟨idx, j⟩ := p
      obtain ⟨herr, -⟩ | ⟨st₁, hok, -, hc⟩ := complete_spec ha hq (read_of_not_ignored hr)
      · rw [herr] at h
        cases h
      · rw [hok] at h
        cases h
        exact .inr (.inr ⟨rfl, idx, j, rfl, hc⟩)
  | other =>
    simp only [he] at h
    cases h
    exact .inl rfl

theorem handle_accounted {follows : String → Bool} (ha : Accounted st) (hr : r.ignored = false)
    (h : handle follows st r = .ok st') : Accounted st' := by
  obtain rfl | ⟨-, idx, j, hi⟩ | ⟨-, idx, j, -, hc⟩ := handle_cases ha hr h
  · exact ha
  · exact hi.accounted ha
  · exact hc.accounted ha

end MqssdModel.Trace.Effects
