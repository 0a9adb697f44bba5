import Mathlib.Data.Multiset.AddSub
import Mathlib.Data.Multiset.UnionInter
import MqssdModel.Trace.Effects

namespace MqssdModel.Trace.Accounting

open Data.OrderedDict Analyser Slots Effects

/-- The requests issued and not yet completed after the given lines. -/
def pending (m : Multiset (Request × Bool)) : List Record → Multiset (Request × Bool)
  | [] => m
  | r :: rs =>
    match r.event with
    | .issued => pending ((r.request, r.write) ::ₘ m) rs
    | .completed => pending (m.erase (r.request, r.write)) rs
    | .other => pending m rs

/-- Every completion is that of a pending request. -/
def Matched (m : Multiset (Request × Bool)) : List Record → Prop
  | [] => True
  | r :: rs =>
    match r.event with
    | .issued => Matched ((r.request, r.write) ::ₘ m) rs
    | .completed => (r.request, r.write) ∈ m ∧ Matched (m.erase (r.request, r.write)) rs
    | .other => Matched m rs

/-- No request is issued for a range for which one is pending. -/
def Distinct (m : Multiset (Request × Bool)) : List Record → Prop
  | [] => True
  | r :: rs =>
    match r.event with
    | .issued => r.request ∉ m.map Prod.fst ∧ Distinct ((r.request, r.write) ::ₘ m) rs
    | .completed => Distinct (m.erase (r.request, r.write)) rs
    | .other => Distinct m rs

instance decidableMatched (m : Multiset (Request × Bool)) : (rs : List Record) →
    Decidable (Matched m rs)
  | [] => isTrue trivial
  | r :: rs =>
    have := decidableMatched ((r.request, r.write) ::ₘ m) rs
    have := decidableMatched (m.erase (r.request, r.write)) rs
    have := decidableMatched m rs
    match he : r.event with
    | .issued => decidable_of_iff (Matched ((r.request, r.write) ::ₘ m) rs) (by simp [Matched, he])
    | .completed => decidable_of_iff
        ((r.request, r.write) ∈ m ∧ Matched (m.erase (r.request, r.write)) rs)
        (by simp [Matched, he])
    | .other => decidable_of_iff (Matched m rs) (by simp [Matched, he])

instance decidableDistinct (m : Multiset (Request × Bool)) : (rs : List Record) →
    Decidable (Distinct m rs)
  | [] => isTrue trivial
  | r :: rs =>
    have := decidableDistinct ((r.request, r.write) ::ₘ m) rs
    have := decidableDistinct (m.erase (r.request, r.write)) rs
    have := decidableDistinct m rs
    match he : r.event with
    | .issued => decidable_of_iff
        (r.request ∉ m.map Prod.fst ∧ Distinct ((r.request, r.write) ::ₘ m) rs)
        (by simp [Distinct, he])
    | .completed => decidable_of_iff (Distinct (m.erase (r.request, r.write)) rs)
        (by simp [Distinct, he])
    | .other => decidable_of_iff (Distinct m rs) (by simp [Distinct, he])

/-- The script gets through the lines, and ends with nothing in flight if every request
has been completed. -/
def Accounts (lines : List Line) : Prop :=
  ∃ st, parseTrace lines = .ok st ∧
    (pending 0 (tracked lines) = 0 → st.numIos = 0 ∧ st.reqs.entries = [])

/-- The maps hold the pending requests, each in one IO only. -/
structure Tracks (st : State) (m : Multiset (Request × Bool)) : Prop where
  accounted : Accounted st
  owner : ∀ i j q, q ∈ slot st i j → st.reqs.get? q = some (i, j)
  sound : ∀ q i j, st.reqs.get? q = some (i, j) → ∃ w, (q, w) ∈ m
  total : ∀ q w, (q, w) ∈ m →
    ∃ i j, st.reqs.get? q = some (i, j) ∧ i % 2 = if w then 1 else 0
  nodup : (m.map Prod.fst).Nodup

theorem tracks_start : Tracks start 0 where
  accounted := accounted_start
  owner i j q h := by simp [slot, slotOf, start] at h
  sound q i j h := by simp [start] at h
  total q w h := by simp at h
  nodup := by simp

variable {st st' : State} {m : Multiset (Request × Bool)} {r : Record} {rs : List Record}

theorem Tracks.issue (h : Tracks st m) (hr : r.request ∉ m.map Prod.fst) {idx j : ℕ}
    (hi : Issued st r idx j st') : Tracks st' ((r.request, r.write) ::ₘ m) where
  accounted := hi.accounted h.accounted
  owner i k q hq := by
    rw [hi.reqs_eq, Dict.get?_set]
    rw [hi.slot_eq] at hq
    split_ifs at hq with hik
    · rcases Finset.mem_insert.mp hq with rfl | hq
      · rw [if_pos rfl, hik.1, hik.2]
      · have hne : q ≠ r.request := fun he ↦ hi.fresh (he ▸ hq)
        rw [if_neg hne, hik.1, hik.2]
        exact h.owner idx j q hq
    · obtain ⟨w, hw⟩ := h.sound q i k (h.owner i k q hq)
      have hne : q ≠ r.request := fun he ↦ hr (he ▸ Multiset.mem_map_of_mem Prod.fst hw)
      rw [if_neg hne]
      exact h.owner i k q hq
  sound q i k hq := by
    rw [hi.reqs_eq, Dict.get?_set] at hq
    split_ifs at hq with he
    · exact ⟨r.write, by rw [he]; exact Multiset.mem_cons_self _ _⟩
    · obtain ⟨w, hw⟩ := h.sound q i k hq
      exact ⟨w, Multiset.mem_cons_of_mem hw⟩
  total q w hq := by
    rw [hi.reqs_eq, Dict.get?_set]
    rcases Multiset.mem_cons.mp hq with he | hq
    · cases he
      exact ⟨idx, j, if_pos rfl, hi.parity⟩
    · have hne : q ≠ r.request := fun he ↦ hr (he ▸ Multiset.mem_map_of_mem Prod.fst hq)
      rw [if_neg hne]
      exact h.total q w hq
  nodup := by
    rw [Multiset.map_cons]
    exact Multiset.nodup_cons.mpr ⟨hr, h.nodup⟩

theorem Tracks.complete (h : Tracks st m) (hm : (r.request, r.write) ∈ m) {idx j : ℕ}
    (hq : st.reqs.get? r.request = some (idx, j)) (hc : Completed st r idx j st') :
    Tracks st' (m.erase (r.request, r.write)) where
  accounted := hc.accounted h.accounted
  owner i k q hk := by
    rw [hc.reqs_eq, Dict.get?_erase]
    rw [hc.slot_eq] at hk
    split_ifs at hk with hik
    · rw [if_neg (Finset.ne_of_mem_erase hk), hik.1, hik.2]
      exact h.owner idx j q (Finset.mem_of_mem_erase hk)
    · have hown := h.owner i k q hk
      rw [if_neg]
      · exact hown
      · rintro rfl
        rw [hq] at hown
        cases hown
        exact hik ⟨rfl, rfl⟩
  sound q i k hk := by
    rw [hc.reqs_eq, Dict.get?_erase] at hk
    split_ifs at hk with he
    obtain ⟨w, hw⟩ := h.sound q i k hk
    exact ⟨w, (Multiset.mem_erase_of_ne fun hp ↦ he (congrArg Prod.fst hp)).mpr hw⟩
  total q w hw := by
    have hnd := h.nodup
    rw [← Multiset.cons_erase hm, Multiset.map_cons, Multiset.nodup_cons] at hnd
    have hne : q ≠ r.request := by
      rintro rfl
      exact hnd.1 (Multiset.mem_map.mpr ⟨_, hw, rfl⟩)
    rw [hc.reqs_eq, Dict.get?_erase, if_neg hne]
    exact h.total q w (Multiset.mem_of_mem_erase hw)
  nodup := Multiset.nodup_of_le (Multiset.map_le_map (Multiset.erase_le _ _)) h.nodup

/-- As long as pending ranges are distinct, nothing fails. -/
theorem Tracks.run (h : Tracks st m) (hr : ∀ r ∈ rs, r.ignored = false) (hm : Matched m rs)
    (hd : Distinct m rs) :
    ∃ st', rs.foldlM (handle fun _ ↦ true) st = .ok st' ∧ Tracks st' (pending m rs) := by
  induction rs generalizing st m with
  | nil => exact ⟨st, rfl, h⟩
  | cons r rs ih =>
    have hrs : ∀ r ∈ rs, r.ignored = false := fun r' hr' ↦ hr r' (List.mem_cons_of_mem r hr')
    rw [List.foldlM_cons]
    cases he : r.event with
    | issued =>
      simp only [Matched, Distinct, pending, he] at hm hd ⊢
      obtain ⟨idx, j, ⟨hmem, -, -⟩ | ⟨st₁, hok, hi⟩⟩ := issue_spec h.accounted r
      · obtain ⟨w, hw⟩ := h.sound _ _ _ (h.owner _ _ _ hmem)
        exact absurd (Multiset.mem_map_of_mem Prod.fst hw) hd.1
      · obtain ⟨st₂, hrun, ht⟩ := ih (h.issue hd.1 hi) hrs hm hd.2
        refine ⟨st₂, ?_, ht⟩
        simp only [handle, he, if_true, hok]
        exact hrun
    | completed =>
      simp only [Matched, Distinct, pending, he] at hm hd ⊢
      obtain ⟨idx, j, hq, hpar⟩ := h.total _ _ hm.1
      obtain ⟨-, hne⟩ | ⟨st₁, hok, -, hc⟩ := complete_spec h.accounted hq
        (read_of_not_ignored (hr r List.mem_cons_self))
      · exact absurd hpar hne
      · obtain ⟨st₂, hrun, ht⟩ := ih (h.complete hm.1 hq hc) hrs hm.2 hd
        refine ⟨st₂, ?_, ht⟩
        simp only [handle, he, hok]
        exact hrun
    | other =>
      simp only [Matched, Distinct, pending, he] at hm hd ⊢
      obtain ⟨st₂, hrun, ht⟩ := ih h hrs hm hd
      refine ⟨st₂, ?_, ht⟩
      simp only [handle, he]
      exact hrun

/-- A request that an IO waits for although the request map knows another owner or none. -/
def Stale (st : State) (q : Request) (i j : ℕ) : Prop :=
  q ∈ slot st i j ∧ st.reqs.get? q ≠ some (i, j)

theorem Stale.step {q : Request} {i j : ℕ} (h : Stale st q i j) (ha : Accounted st)
    (hr : r.ignored = false) {follows : String → Bool} (hok : handle follows st r = .ok st') :
    Stale st' q i j := by
  obtain rfl | ⟨-, idx, k, hi⟩ | ⟨-, idx, k, hq, hc⟩ := handle_cases ha hr hok
  · exact h
  · constructor
    · rw [hi.slot_eq]
      split_ifs with hik
      · rw [hik.1, hik.2] at h
        exact Finset.mem_insert_of_mem h.1
      · exact h.1
    · rw [hi.reqs_eq, Dict.get?_set]
      split_ifs with he
      · intro hij
        cases hij
        exact hi.fresh (he ▸ h.1)
      · exact h.2
  · constructor
    · rw [hc.slot_eq]
      split_ifs with hik
      · rw [← hik.1, ← hik.2]
        refine Finset.mem_erase.mpr ⟨?_, h.1⟩
        rintro rfl
        rw [hik.1, hik.2] at h
        exact h.2 hq
      · exact h.1
    · rw [hc.reqs_eq, Dict.get?_erase]
      split_ifs
      · simp
      · exact h.2

theorem Stale.run {q : Request} {i j : ℕ} (h : Stale st q i j) (ha : Accounted st)
    (hr : ∀ r ∈ rs, r.ignored = false) {follows : String → Bool}
    (hok : rs.foldlM (handle follows) st = .ok st') : Stale st' q i j ∧ Accounted st' := by
  induction rs generalizing st with
  | nil =>
    cases hok
    exact ⟨h, ha⟩
  | cons r rs ih =>
    rw [List.foldlM_cons] at hok
    have hr₀ := hr r List.mem_cons_self
    cases hs : handle follows st r with
    | error e =>
      rw [hs] at hok
      cases hok
    | ok st₁ =>
      rw [hs] at hok
      exact ih (h.step ha hr₀ hs) (handle_accounted ha hr₀ hs)
        (fun r' hr' ↦ hr r' (List.mem_cons_of_mem r hr')) hok

/-- A second request for a pending range leaves the first one behind for good. -/
theorem Tracks.stale (h : Tracks st m) (hr : ∀ r ∈ rs, r.ignored = false) (hm : Matched m rs)
    (hd : ¬ Distinct m rs) (hok : rs.foldlM (handle fun _ ↦ true) st = .ok st') :
    ∃ q i j, Stale st' q i j ∧ Accounted st' := by
  induction rs generalizing st m with
  | nil => exact absurd trivial hd
  | cons r rs ih =>
    have hrs : ∀ r ∈ rs, r.ignored = false := fun r' hr' ↦ hr r' (List.mem_cons_of_mem r hr')
    rw [List.foldlM_cons] at hok
    cases he : r.event with
    | issued =>
      simp only [Matched, Distinct, he] at hm hd
      simp only [handle, he, if_true] at hok
      obtain ⟨idx, j, ⟨-, -, herr⟩ | ⟨st₁, hst₁, hi⟩⟩ := issue_spec h.accounted r
      · rw [herr] at hok
        cases hok
      · rw [hst₁] at hok
        by_cases hmem : r.request ∈ m.map Prod.fst
        · obtain ⟨⟨q, w⟩, hqw, hq⟩ := Multiset.mem_map.mp hmem
          change q = r.request at hq
          subst hq
          obtain ⟨i, k, hown, -⟩ := h.total _ w hqw
          have hslot := h.accounted.reqs_mem _ _ _ hown
          have hne : ¬ (i = idx ∧ k = j) := fun hik ↦ by
            rw [hik.1, hik.2] at hslot
            exact hi.fresh hslot
          have hst : Stale st₁ r.request i k := by
            refine ⟨by rwa [hi.slot_eq, if_neg hne], ?_⟩
            rw [hi.reqs_eq, Dict.get?_set, if_pos rfl]
            intro hik
            cases hik
            exact hne ⟨rfl, rfl⟩
          exact ⟨_, i, k, hst.run (hi.accounted h.accounted) hrs hok⟩
        · exact ih (h.issue hmem hi) hrs hm (fun hd' ↦ hd ⟨hmem, hd'⟩) hok
    | completed =>
      simp only [Matched, Distinct, he] at hm hd
      simp only [handle, he] at hok
      obtain ⟨idx, j, hq, hpar⟩ := h.total _ _ hm.1
      obtain ⟨-, hne⟩ | ⟨st₁, hst₁, -, hc⟩ := complete_spec h.accounted hq
        (read_of_not_ignored (hr r List.mem_cons_self))
      · exact absurd hpar hne
      · rw [hst₁] at hok
        exact ih (h.complete hm.1 hq hc) hrs hm.2 hd hok
    | other =>
      simp only [Matched, Distinct, he] at hm hd
      simp only [handle, he] at hok
      exact ih h hrs hm hd hok

theorem Tracks.quiet (h : Tracks st 0) : st.numIos = 0 ∧ st.reqs.entries = [] := by
  have hreqs : ∀ q, st.reqs.get? q = none := by
    intro q
    cases hq : st.reqs.get? q with
    | none => rfl
    | some p =>
      obtain ⟨w, hw⟩ := h.sound q p.1 p.2 hq
      exact absurd hw (Multiset.notMem_zero _)
  refine ⟨?_, Dict.eq_empty_of_get? hreqs⟩
  have hz : openIos st.ios = 0 := openIos_eq_zero.mpr fun i j ↦
    Finset.eq_empty_of_forall_notMem fun q hq ↦ by
      have hown := h.owner i j q hq
      rw [hreqs] at hown
      cases hown
  rw [h.accounted.numIos, hz]
  rfl

theorem accounts_of_distinct {lines : List Line} (hm : Matched 0 (tracked lines))
    (hd : Distinct 0 (tracked lines)) : Accounts lines := by
  obtain ⟨st, hok, ht⟩ := tracks_start.run (fun r h ↦ not_ignored_of_mem h) hm hd
  refine ⟨st, ?_, fun hp ↦ ?_⟩
  · rw [parseTrace, analyse_eq, hok]
  · rw [hp] at ht
    exact ht.quiet

theorem distinct_of_accounts {lines : List Line} (hm : Matched 0 (tracked lines))
    (hp : pending 0 (tracked lines) = 0) (h : Accounts lines) : Distinct 0 (tracked lines) := by
  obtain ⟨st, hok, hquiet⟩ := h
  by_contra hd
  rw [parseTrace, analyse_eq] at hok
  obtain ⟨q, i, j, hstale, ha⟩ := tracks_start.stale (fun r h ↦ not_ignored_of_mem h) hm hd hok
  have hnum := (hquiet hp).1
  rw [ha.numIos] at hnum
  have hempty := openIos_eq_zero.mp (Int.ofNat_eq_zero.mp hnum) i j
  have hmem := hstale.1
  rw [slot, hempty] at hmem
  exact Finset.notMem_empty _ hmem

/-- On traces in which every completion belongs to a pending request, the script accounts
for every request if no request is issued for a range that is still pending. When every
request is completed in the end this is also necessary. -/
theorem accounts_iff_distinct (lines : List Line) (hm : Matched 0 (tracked lines)) :
    (Distinct 0 (tracked lines) → Accounts lines) ∧
      (pending 0 (tracked lines) = 0 → (Accounts lines ↔ Distinct 0 (tracked lines))) :=
  ⟨accounts_of_distinct hm, fun hp ↦ ⟨distinct_of_accounts hm hp, accounts_of_distinct hm⟩⟩

def readLine (pid : ℤ) (event : Event) (start offset : ℤ) : Line :=
  .record ⟨"0.0", pid, event, ['R'], start, offset, "[micro_bench]"⟩

theorem accounts_two_threads : Accounts [readLine 1 .issued 8 8, readLine 2 .issued 16 8,
    readLine 2 .completed 16 8, readLine 1 .completed 8 8] :=
  (accounts_iff_distinct _ (by decide)).1 (by decide)

def sameRange : List Line := [readLine 1 .issued 8 8, readLine 2 .issued 8 8,
  readLine 1 .completed 8 8, readLine 2 .completed 8 8]

/-- Two threads read the same range at the same time: one of the two IOs stays in flight. -/
theorem not_accounts_sameRange : Matched 0 (tracked sameRange) ∧
    pending 0 (tracked sameRange) = 0 ∧ (parseTrace sameRange).map (·.numIos) = .ok 1 ∧
    ¬ Accounts sameRange := by
  have hnum : (parseTrace sameRange).map (·.numIos) = .ok 1 := by decide
  have hp : pending 0 (tracked sameRange) = 0 := by decide
  refine ⟨by decide, hp, hnum, ?_⟩
  rintro ⟨st, hok, hquiet⟩
  rw [hok] at hnum
  have h₁ : st.numIos = 1 := Except.ok.inj hnum
  rw [(hquiet hp).1] at h₁
  cases h₁

end MqssdModel.Trace.Accounting
