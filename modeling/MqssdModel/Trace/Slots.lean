import Mathlib
import MqssdModel.Trace.Analyser

namespace MqssdModel.Trace.Slots

open Data.OrderedDict Analyser

def slotOf (ios : List (List (Finset Request))) (i j : ℕ) : Finset Request :=
  ((ios[i]?).bind (·[j]?)).getD ∅

def lastOf (lasts : List (Dict ℤ ℕ)) (i : ℕ) (a : ℤ) : Option ℕ := (lasts[i]?).bind (·.get? a)

/-- The requests that the IO `j` of the thread and direction `i` waits for. -/
def slot (st : State) (i j : ℕ) : Finset Request := slotOf st.ios i j

/-- The IO of the thread and direction `i` whose latest request ends at `a`. -/
def last (st : State) (i : ℕ) (a : ℤ) : Option ℕ := lastOf st.lastAddr i a

/-- The number of IOs that still wait for a request. -/
def openIos (ios : List (List (Finset Request))) : ℕ :=
  (ios.map fun sets ↦ (sets.map fun s ↦ if s = ∅ then 0 else 1).sum).sum

variable {ios : List (List (Finset Request))} {lasts : List (Dict ℤ ℕ)}

theorem slotOf_set {i j : ℕ} {sets : List (Finset Request)} (hi : ios[i]? = some sets)
    (hj : j < sets.length) (s : Finset Request) (i' j' : ℕ) :
    slotOf (ios.set i (sets.set j s)) i' j' =
      if i' = i ∧ j' = j then s else slotOf ios i' j' := by
  obtain ⟨hlen, -⟩ := List.getElem?_eq_some_iff.mp hi
  unfold slotOf
  by_cases h : i = i'
  · subst h
    rw [List.getElem?_set_self hlen, hi, Option.bind_some, Option.bind_some]
    by_cases h' : j = j'
    · subst h'
      rw [List.getElem?_set_self hj, if_pos ⟨rfl, rfl⟩, Option.getD_some]
    · rw [List.getElem?_set_ne h', if_neg fun hc ↦ h' hc.2.symm]
  · rw [List.getElem?_set_ne h, if_neg fun hc ↦ h hc.1.symm]

theorem slotOf_push {i : ℕ} {sets : List (Finset Request)} (hi : ios[i]? = some sets)
    (i' j' : ℕ) : slotOf (ios.set i (sets ++ [∅])) i' j' = slotOf ios i' j' := by
  obtain ⟨hlen, -⟩ := List.getElem?_eq_some_iff.mp hi
  unfold slotOf
  by_cases h : i = i'
  · subst h
    rw [List.getElem?_set_self hlen, hi, Option.bind_some, Option.bind_some]
    rcases Nat.lt_trichotomy j' sets.length with h' | h' | h'
    · rw [List.getElem?_append_left h']
    · subst h'
      simp
    · rw [List.getElem?_eq_none (by simp; omega), List.getElem?_eq_none (by omega)]
  · rw [List.getElem?_set_ne h]

theorem slotOf_thread (i j : ℕ) : slotOf (ios ++ [[], []]) i j = slotOf ios i j := by
  unfold slotOf
  rcases Nat.lt_or_ge i ios.length with h | h
  · rw [List.getElem?_append_left h]
  · rw [List.getElem?_append_right h, List.getElem?_eq_none h]
    match i - ios.length with
    | 0 => rfl
    | 1 => rfl
    | _ + 2 => rfl

theorem lastOf_set {i : ℕ} {d : Dict ℤ ℕ} (hi : lasts[i]? = some d) (d' : Dict ℤ ℕ) (i' : ℕ)
    (a : ℤ) : lastOf (lasts.set i d') i' a = if i' = i then d'.get? a else lastOf lasts i' a := by
  obtain ⟨hlen, -⟩ := List.getElem?_eq_some_iff.mp hi
  unfold lastOf
  by_cases h : i = i'
  · subst h
    rw [List.getElem?_set_self hlen, if_pos rfl, Option.bind_some]
  · rw [List.getElem?_set_ne h, if_neg fun hc ↦ h hc.symm]

theorem lastOf_thread (i : ℕ) (a : ℤ) : lastOf (lasts ++ [.empty, .empty]) i a = lastOf lasts i a := by
  unfold lastOf
  rcases Nat.lt_or_ge i lasts.length with h | h
  · rw [List.getElem?_append_left h]
  · rw [List.getElem?_append_right h, List.getElem?_eq_none h]
    match i - lasts.length with
    | 0 => rfl
    | 1 => rfl
    | _ + 2 => rfl

theorem sum_map_set {α : Type*} (f : α → ℕ) {xs : List α} {i : ℕ} {x : α} (h : xs[i]? = some x)
    (y : α) : ((xs.set i y).map f).sum + f x = (xs.map f).sum + f y := by
  induction xs generalizing i with
  | nil => simp at h
  | cons z xs ih =>
    cases i with
    | zero =>
      obtain rfl : z = x := by simpa using h
      simp only [List.set_cons_zero, List.map_cons, List.sum_cons]
      omega
    | succ i =>
      have hi := ih (i := i) (by simpa using h)
      simp only [List.set_cons_succ, List.map_cons, List.sum_cons]
      omega

theorem openIos_set {i j : ℕ} {sets : List (Finset Request)} {s : Finset Request}
    (hi : ios[i]? = some sets) (hj : sets[j]? = some s) (t : Finset Request) :
    openIos (ios.set i (sets.set j t)) + (if s = ∅ then 0 else 1) =
      openIos ios + if t = ∅ then 0 else 1 := by
  have h₁ := sum_map_set (fun sets : List (Finset Request) ↦
    (sets.map fun s ↦ if s = ∅ then 0 else 1).sum) hi (sets.set j t)
  have h₂ := sum_map_set (fun s : Finset Request ↦ if s = ∅ then 0 else 1) hj t
  simp only [openIos] at h₁ h₂ ⊢
  omega

theorem openIos_push {i : ℕ} {sets : List (Finset Request)} (hi : ios[i]? = some sets) :
    openIos (ios.set i (sets ++ [∅])) = openIos ios := by
  have h₁ := sum_map_set (fun sets : List (Finset Request) ↦
    (sets.map fun s ↦ if s = ∅ then 0 else 1).sum) hi (sets ++ [∅])
  simp only [List.map_append, List.sum_append, List.map_singleton, if_true,
    List.sum_singleton] at h₁
  simp only [openIos]
  omega

theorem openIos_thread : openIos (ios ++ [[], []]) = openIos ios := by simp [openIos]

theorem openIos_eq_zero : openIos ios = 0 ↔ ∀ i j, slotOf ios i j = ∅ := by
  have hzero : ∀ sets : List (Finset Request),
      (sets.map fun s ↦ if s = ∅ then 0 else 1).sum = 0 ↔ ∀ s ∈ sets, s = ∅ := by
    intro sets
    rw [List.sum_eq_zero_iff_forall_eq_nat]
    constructor
    · intro h s hs
      by_contra hne
      have h' := h _ (List.mem_map_of_mem hs)
      rw [if_neg hne] at h'
      omega
    · intro h n hn
      obtain ⟨s, hs, rfl⟩ := List.mem_map.mp hn
      exact if_pos (h s hs)
  rw [openIos, List.sum_eq_zero_iff_forall_eq_nat]
  constructor
  · intro h i j
    unfold slotOf
    cases hi : ios[i]? with
    | none => rfl
    | some sets =>
      rw [Option.bind_some]
      cases hj : sets[j]? with
      | none => rfl
      | some s =>
        have hsets := (hzero sets).mp (h _ (List.mem_map_of_mem (List.mem_of_getElem? hi)))
        exact hsets s (List.mem_of_getElem? hj)
  · intro h n hn
    obtain ⟨sets, hsets, rfl⟩ := List.mem_map.mp hn
    refine (hzero sets).mpr fun s hs ↦ ?_
    obtain ⟨i, hi⟩ := List.mem_iff_getElem?.mp hsets
    obtain ⟨j, hj⟩ := List.mem_iff_getElem?.mp hs
    have hij := h i j
    simpa only [slotOf, hi, Option.bind_some, hj, Option.getD_some] using hij

end MqssdModel.Trace.Slots
