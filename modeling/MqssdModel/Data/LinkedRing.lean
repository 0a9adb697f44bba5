import Mathlib.Data.Fintype.EquivFin
import Mathlib.Data.List.Forall2
import Mathlib.Data.List.Nodup
import Mathlib.Logic.Function.Basic
import MqssdModel.Data.TotalRun

namespace MqssdModel.Data.LinkedRing

open Data.TotalRun

/-- Cells with a value that are linked in both directions. What is not allocated is not live. -/
structure Heap (α β : Type) where
  prev : α → α
  next : α → α
  value : α → β
  live : α → Bool

inductive Fault
  | dangling
  | fuel
  deriving DecidableEq

abbrev H (α β : Type) := StateT (Heap α β) (Except Fault)

variable {α β : Type} {h h' : Heap α β} {head a b x : α} {v : β}
  {as l₁ l₂ extra S₁ S₂ T₁ T₂ : List α}

section Operations

def check (a : α) : H α β Unit := do if (← get).live a then return else throw .dangling

def getPrev (a : α) : H α β α := do
  check a
  return (← get).prev a

def getNext (a : α) : H α β α := do
  check a
  return (← get).next a

def getValue (a : α) : H α β β := do
  check a
  return (← get).value a

/-- An allocator finds an unused cell if there is one. -/
structure Allocator (α β : Type) where
  pick : Heap α β → α
  unused : ∀ h : Heap α β, (∃ a, h.live a = false) → h.live (pick h) = false

variable [DecidableEq α]

def setPrev (a b : α) : H α β Unit := do
  check a
  modify fun h ↦ { h with prev := Function.update h.prev a b }

def setNext (a b : α) : H α β Unit := do
  check a
  modify fun h ↦ { h with next := Function.update h.next a b }

def setValue (a : α) (v : β) : H α β Unit := do
  check a
  modify fun h ↦ { h with value := Function.update h.value a v }

def malloc (alloc : Allocator α β) : H α β α := do
  let a := alloc.pick (← get)
  modify fun h ↦ { h with live := Function.update h.live a true }
  return a

def free (a : α) : H α β Unit := do
  check a
  modify fun h ↦ { h with live := Function.update h.live a false }

def listInit (link : α) : H α β Unit := do
  setPrev link link
  setNext link link

/-- `__list_add` -/
def listAddBetween (link prev next : α) : H α β Unit := do
  setNext link next
  setPrev link prev
  setPrev next link
  setNext prev link

/-- `__list_del` -/
def listDelBetween (prev next : α) : H α β Unit := do
  setNext prev next
  setPrev next prev

def listAdd (link prev : α) : H α β Unit := do listAddBetween link prev (← getNext prev)

def listAddTail (link head : α) : H α β Unit := do listAddBetween link (← getPrev head) head

def listDel (link : α) : H α β Unit := do
  listDelBetween (← getPrev link) (← getNext link)
  listInit link

def listEmpty (head : α) : H α β Bool := do return (← getNext head) = head

end Operations

section Accesses

theorem check_run (ha : h.live a = true) : Runs (check a) h fun _ h' ↦ h' = h := by
  refine runs_get_bind ?_
  rw [if_pos ha]
  exact runs_pure rfl

theorem getPrev_run (ha : h.live a = true) :
    Runs (getPrev a) h fun x h' ↦ h' = h ∧ x = h.prev a := by
  refine (check_run ha).seq ?_
  rintro _ _ rfl
  exact runs_get_bind (runs_pure ⟨rfl, rfl⟩)

theorem getNext_run (ha : h.live a = true) :
    Runs (getNext a) h fun x h' ↦ h' = h ∧ x = h.next a := by
  refine (check_run ha).seq ?_
  rintro _ _ rfl
  exact runs_get_bind (runs_pure ⟨rfl, rfl⟩)

theorem getValue_run (ha : h.live a = true) :
    Runs (getValue a) h fun x h' ↦ h' = h ∧ x = h.value a := by
  refine (check_run ha).seq ?_
  rintro _ _ rfl
  exact runs_get_bind (runs_pure ⟨rfl, rfl⟩)

variable [DecidableEq α]

theorem setPrev_run (ha : h.live a = true) : Runs (setPrev a b) h fun _ h' ↦
    h' = { h with prev := Function.update h.prev a b } := by
  refine (check_run ha).seq ?_
  rintro _ _ rfl
  exact runs_modify rfl

theorem setNext_run (ha : h.live a = true) : Runs (setNext a b) h fun _ h' ↦
    h' = { h with next := Function.update h.next a b } := by
  refine (check_run ha).seq ?_
  rintro _ _ rfl
  exact runs_modify rfl

theorem listInit_run (ha : h.live a = true) : Runs (listInit a) h fun _ h' ↦
    h' = { h with prev := Function.update h.prev a a, next := Function.update h.next a a } := by
  refine (setPrev_run ha).seq ?_
  rintro _ _ rfl
  exact setNext_run (by exact ha)

theorem listAddBetween_run (hx : h.live x = true) (ha : h.live a = true) (hb : h.live b = true) :
    Runs (listAddBetween x a b) h fun _ h' ↦
      h' = { h with
        next := Function.update (Function.update h.next x b) a x
        prev := Function.update (Function.update h.prev x a) b x } := by
  refine (setNext_run hx).seq ?_
  rintro _ _ rfl
  refine (setPrev_run (by exact hx)).seq ?_
  rintro _ _ rfl
  refine (setPrev_run (by exact hb)).seq ?_
  rintro _ _ rfl
  exact setNext_run (by exact ha)

theorem listDelBetween_run (ha : h.live a = true) (hb : h.live b = true) :
    Runs (listDelBetween a b) h fun _ h' ↦
      h' = { h with
        next := Function.update h.next a b
        prev := Function.update h.prev b a } := by
  refine (setNext_run ha).seq ?_
  rintro _ _ rfl
  exact setPrev_run (by exact hb)

end Accesses

section Links

variable {next prev next' prev' : α → α}

/-- `b` comes behind `a`. -/
def Link (next prev : α → α) (a b : α) : Prop := next a = b ∧ prev b = a

/-- Links stay where neither end is written to. -/
theorem links_congr (h : List.Forall₂ (Link next prev) S₁ T₁)
    (hnext : ∀ a ∈ S₁, next' a = next a) (hprev : ∀ b ∈ T₁, prev' b = prev b) :
    List.Forall₂ (Link next' prev') S₁ T₁ := by
  induction h with
  | nil => exact .nil
  | @cons a b S T hab _ ih =>
    refine .cons ⟨?_, ?_⟩ (ih (fun a ha ↦ hnext a (List.mem_cons_of_mem _ ha))
      fun b hb ↦ hprev b (List.mem_cons_of_mem _ hb))
    · rw [hnext a List.mem_cons_self, hab.1]
    · rw [hprev b List.mem_cons_self, hab.2]

theorem links_split (hlen : S₁.length = T₁.length) :
    List.Forall₂ (Link next prev) (S₁ ++ a :: S₂) (T₁ ++ b :: T₂) ↔
      List.Forall₂ (Link next prev) S₁ T₁ ∧ Link next prev a b ∧
        List.Forall₂ (Link next prev) S₂ T₂ := by
  induction S₁ generalizing T₁ with
  | nil =>
    obtain rfl := List.eq_nil_of_length_eq_zero hlen.symm
    simp
  | cons c S₁ ih =>
    cases T₁ with
    | nil => cases hlen
    | cons d T₁ =>
      rw [List.cons_append, List.cons_append, List.forall₂_cons, List.forall₂_cons,
        ih (Nat.succ.inj hlen), and_assoc]

theorem not_mem_of_nodup {l l' : List α} (h : (l ++ a :: l').Nodup) : a ∉ l ∧ a ∉ l' := by
  have hnot := (List.nodup_cons.mp (List.nodup_middle.mp h)).1
  rwa [List.mem_append, not_or] at hnot

variable [DecidableEq α]

theorem update_apart {f : α → α} {S : List α} (h : a ∉ S) (y : α) :
    ∀ c ∈ S, Function.update f a y c = f c :=
  fun _ hc ↦ Function.update_of_ne (ne_of_mem_of_not_mem hc h) y f

theorem links_insert (S₁ T₁ : List α)
    (h : List.Forall₂ (Link next prev) (S₁ ++ a :: S₂) (T₁ ++ b :: T₂))
    (hlen : S₁.length = T₁.length) (hS : (S₁ ++ a :: S₂).Nodup) (hT : (T₁ ++ b :: T₂).Nodup)
    (hxS : x ∉ S₁ ++ a :: S₂) (hxT : x ∉ T₁ ++ b :: T₂) :
    List.Forall₂ (Link (Function.update (Function.update next x b) a x)
      (Function.update (Function.update prev x a) b x))
      (S₁ ++ a :: x :: S₂) (T₁ ++ x :: b :: T₂) := by
  obtain ⟨h₁, -, h₂⟩ := (links_split hlen).mp h
  obtain ⟨ha₁, ha₂⟩ := not_mem_of_nodup hS
  obtain ⟨hb₁, hb₂⟩ := not_mem_of_nodup hT
  simp only [List.mem_append, List.mem_cons, not_or] at hxS hxT
  obtain ⟨hx₁, hxa, hx₂⟩ := hxS
  obtain ⟨hx₁', hxb, hx₂'⟩ := hxT
  refine (links_split hlen).mpr ⟨links_congr h₁ (fun c hc ↦ ?_) fun c hc ↦ ?_, ⟨?_, ?_⟩,
    .cons ⟨?_, ?_⟩ (links_congr h₂ (fun c hc ↦ ?_) fun c hc ↦ ?_)⟩
  · rw [update_apart ha₁ _ c hc, update_apart hx₁ _ c hc]
  · rw [update_apart hb₁ _ c hc, update_apart hx₁' _ c hc]
  · exact Function.update_self ..
  · rw [Function.update_of_ne hxb, Function.update_self]
  · rw [Function.update_of_ne hxa, Function.update_self]
  · exact Function.update_self ..
  · rw [update_apart ha₂ _ c hc, update_apart hx₂ _ c hc]
  · rw [update_apart hb₂ _ c hc, update_apart hx₂' _ c hc]

theorem links_remove (S₁ T₁ : List α)
    (h : List.Forall₂ (Link next prev) (S₁ ++ a :: x :: S₂) (T₁ ++ x :: b :: T₂))
    (hlen : S₁.length = T₁.length) (hS : (S₁ ++ a :: x :: S₂).Nodup)
    (hT : (T₁ ++ x :: b :: T₂).Nodup) :
    List.Forall₂ (Link (Function.update (Function.update next a b) x x)
      (Function.update (Function.update prev b a) x x)) (S₁ ++ a :: S₂) (T₁ ++ b :: T₂) := by
  obtain ⟨h₁, -, h₂⟩ := (links_split hlen).mp h
  obtain ⟨-, h₂⟩ := List.forall₂_cons.mp h₂
  obtain ⟨ha₁, ha₂⟩ := not_mem_of_nodup hS
  obtain ⟨hx₁', hx₂'⟩ := not_mem_of_nodup hT
  have hS' : (S₁ ++ [a] ++ x :: S₂).Nodup := by simpa using hS
  have hT' : (T₁ ++ [x] ++ b :: T₂).Nodup := by simpa using hT
  obtain ⟨hx₁, hx₂⟩ := not_mem_of_nodup hS'
  obtain ⟨hb₁, hb₂⟩ := not_mem_of_nodup hT'
  simp only [List.mem_append, List.mem_cons, List.not_mem_nil, or_false, not_or] at *
  refine (links_split hlen).mpr ⟨links_congr h₁ (fun c hc ↦ ?_) fun c hc ↦ ?_, ⟨?_, ?_⟩,
    links_congr h₂ (fun c hc ↦ ?_) fun c hc ↦ ?_⟩
  · rw [update_apart hx₁.1 _ c hc, update_apart ha₁ _ c hc]
  · rw [update_apart hx₁' _ c hc, update_apart hb₁.1 _ c hc]
  · rw [Function.update_of_ne (Ne.symm hx₁.2), Function.update_self]
  · rw [Function.update_of_ne hb₁.2, Function.update_self]
  · rw [update_apart hx₂ _ c hc, update_apart ha₂.2 _ c hc]
  · rw [update_apart hx₂'.2 _ c hc, update_apart hb₂ _ c hc]

end Links

section Specs

/-- The ring of `head` and the cells `as`. No other cell is live, except those in `extra`. -/
structure Ring (h : Heap α β) (head : α) (as extra : List α) : Prop where
  nodup : (head :: as ++ extra).Nodup
  links : List.Forall₂ (Link h.next h.prev) (head :: as) (as ++ [head])
  live : ∀ a, h.live a = true ↔ a ∈ head :: as ++ extra

theorem Ring.nodup_targets (hr : Ring h head as extra) : (as ++ [head]).Nodup :=
  (List.perm_append_singleton head as).nodup_iff.mpr (List.Nodup.of_append_left hr.nodup)

theorem Ring.live_head (hr : Ring h head as extra) : h.live head = true :=
  (hr.live head).mpr (by simp)

theorem Ring.next_head (hr : Ring h head as extra) : h.next head = as.headD head := by
  have hlinks := hr.links
  cases as with
  | nil => exact (List.forall₂_cons.mp hlinks).1.1
  | cons a as => exact (List.forall₂_cons.mp hlinks).1.1

theorem Ring.next_first (hr : Ring h head (a :: as) extra) : h.next a = as.headD head := by
  have hlinks := (List.forall₂_cons.mp hr.links).2
  cases as with
  | nil => exact (List.forall₂_cons.mp hlinks).1.1
  | cons b as => exact (List.forall₂_cons.mp hlinks).1.1

theorem Ring.first_ne (hr : Ring h head (a :: as) extra) : a ≠ head := by
  rintro rfl
  exact (List.nodup_cons.mp hr.nodup).1 List.mem_cons_self

theorem Ring.live_first (hr : Ring h head as extra) : h.live (as.headD head) = true := by
  refine (hr.live _).mpr ?_
  cases as with
  | nil => simp
  | cons a as => simp

theorem ring_init (hlive : ∀ a, h.live a = true ↔ a = head) [DecidableEq α] :
    Runs (listInit head) h fun _ h' ↦ Ring h' head [] [] ∧ h'.value = h.value := by
  refine (listInit_run ((hlive head).mpr rfl)).mono ?_
  rintro _ _ rfl
  refine ⟨⟨by simp, .cons ⟨by simp, by simp⟩ .nil, fun a ↦ ?_⟩, rfl⟩
  simpa using hlive a

theorem listEmpty_run (hr : Ring h head as extra) [DecidableEq α] :
    Runs (listEmpty head) h fun b h' ↦ h' = h ∧ b = as.isEmpty := by
  refine (getNext_run hr.live_head).seq ?_
  rintro _ _ ⟨rfl, rfl⟩
  refine runs_pure ⟨rfl, ?_⟩
  rw [hr.next_head]
  cases as with
  | nil => simp
  | cons a as => simp [hr.first_ne]

theorem Ring.congr {h₁ : Heap α β} {as' extra' : List α} (hr : Ring h head as extra)
    (hperm : (head :: as' ++ extra').Perm (head :: as ++ extra))
    (hlinks : List.Forall₂ (Link h₁.next h₁.prev) (head :: as') (as' ++ [head]))
    (hlive : h₁.live = h.live) : Ring h₁ head as' extra' where
  nodup := hperm.nodup_iff.mpr hr.nodup
  links := hlinks
  live a := by rw [hlive, hr.live, hperm.mem_iff]

variable [DecidableEq α]

theorem listAdd_run (hr : Ring h head as (x :: extra)) : Runs (listAdd x head) h fun _ h' ↦
    Ring h' head (x :: as) extra ∧ h'.value = h.value := by
  have hperm : (head :: (x :: as) ++ extra).Perm (head :: as ++ x :: extra) :=
    (List.perm_middle.symm).cons head
  obtain ⟨T, hT⟩ : ∃ T, as ++ [head] = as.headD head :: T := by
    cases as with
    | nil => exact ⟨[], rfl⟩
    | cons a as => exact ⟨as ++ [head], rfl⟩
  have hnot : x ∉ head :: as := (not_mem_of_nodup hr.nodup).1
  have hnot' : x ∉ as ++ [head] := by simpa [or_comm] using hnot
  have hlinks := hr.links
  have hnodup := hr.nodup_targets
  rw [hT] at hlinks hnodup hnot'
  refine (getNext_run hr.live_head).seq ?_
  rintro _ _ ⟨rfl, rfl⟩
  rw [hr.next_head]
  refine (listAddBetween_run ((hr.live x).mpr (by simp)) hr.live_head hr.live_first).mono ?_
  rintro _ _ rfl
  refine ⟨hr.congr hperm ?_ rfl, rfl⟩
  rw [List.cons_append, hT]
  exact links_insert [] [] hlinks rfl (List.Nodup.of_append_left hr.nodup) hnodup hnot hnot'

theorem listAddTail_run (hr : Ring h head as (x :: extra)) : Runs (listAddTail x head) h
    fun _ h' ↦ Ring h' head (as ++ [x]) extra ∧ h'.value = h.value := by
  have hperm : (head :: (as ++ [x]) ++ extra).Perm (head :: as ++ x :: extra) := by simp
  obtain ⟨S, a, hS⟩ : ∃ S a, head :: as = S ++ [a] :=
    ⟨_, _, (List.dropLast_append_getLast (List.cons_ne_nil head as)).symm⟩
  have hlen : S.length = as.length := by
    have := congrArg List.length hS
    simpa using this.symm
  have hnot : x ∉ head :: as := (not_mem_of_nodup hr.nodup).1
  have hnot' : x ∉ as ++ [head] := by simpa [or_comm] using hnot
  have hlinks := hr.links
  have hnodup : (head :: as).Nodup := List.Nodup.of_append_left hr.nodup
  rw [hS] at hlinks hnodup hnot
  have hlast : h.prev head = a := ((links_split hlen).mp hlinks).2.1.2
  have hlive : h.live a = true :=
    (hr.live a).mpr (List.mem_append_left _ (hS ▸ List.mem_append_right _ List.mem_cons_self))
  refine (getPrev_run hr.live_head).seq ?_
  rintro _ _ ⟨rfl, rfl⟩
  rw [hlast]
  refine (listAddBetween_run ((hr.live x).mpr (by simp)) hlive hr.live_head).mono ?_
  rintro _ _ rfl
  refine ⟨hr.congr hperm ?_ rfl, rfl⟩
  have hinsert := links_insert S as hlinks hlen hnodup hr.nodup_targets hnot hnot'
  rw [← List.cons_append, hS]
  simpa using hinsert

theorem listDel_run (hr : Ring h head (l₁ ++ x :: l₂) extra) : Runs (listDel x) h
    fun _ h' ↦ Ring h' head (l₁ ++ l₂) (x :: extra) ∧ h'.value = h.value := by
  have hperm : (head :: (l₁ ++ l₂) ++ x :: extra).Perm (head :: (l₁ ++ x :: l₂) ++ extra) := by
    refine List.Perm.cons head ?_
    refine List.perm_middle.trans ?_
    rw [← List.cons_append]
    exact List.perm_middle.symm.append_right extra
  obtain ⟨S, a, hS⟩ : ∃ S a, head :: l₁ = S ++ [a] :=
    ⟨_, _, (List.dropLast_append_getLast (List.cons_ne_nil head l₁)).symm⟩
  obtain ⟨b, T, hT⟩ : ∃ b T, l₂ ++ [head] = b :: T := by
    cases l₂ with
    | nil => exact ⟨head, [], rfl⟩
    | cons b l₂ => exact ⟨b, l₂ ++ [head], rfl⟩
  have hlen : S.length = l₁.length := by
    have := congrArg List.length hS
    simpa using this.symm
  have hsources : head :: (l₁ ++ x :: l₂) = S ++ a :: x :: l₂ := by
    rw [← List.cons_append, hS, List.append_assoc]
    rfl
  have htargets : l₁ ++ x :: l₂ ++ [head] = l₁ ++ x :: b :: T := by
    rw [List.append_assoc, List.cons_append, hT]
  have hlinks := hr.links
  have hnodup : (head :: (l₁ ++ x :: l₂)).Nodup := List.Nodup.of_append_left hr.nodup
  have hnodup' := hr.nodup_targets
  have hlive : ∀ y ∈ head :: (l₁ ++ x :: l₂), h.live y = true :=
    fun y hy ↦ (hr.live y).mpr (List.mem_append_left _ hy)
  have hb : h.live b = true := by
    refine hlive b ?_
    have hmem : b ∈ l₁ ++ x :: l₂ ++ [head] := by
      rw [htargets]
      simp
    exact (List.perm_append_singleton head _).mem_iff.mp hmem
  rw [hsources] at hlinks hnodup hlive
  rw [htargets] at hlinks hnodup'
  obtain ⟨-, hax, hrest⟩ := (links_split hlen).mp hlinks
  have hxb := (List.forall₂_cons.mp hrest).1
  have hx : h.live x = true := hlive x (by simp)
  refine (getPrev_run hx).seq ?_
  rintro _ _ ⟨rfl, rfl⟩
  refine (getNext_run hx).seq ?_
  rintro _ _ ⟨rfl, rfl⟩
  rw [hax.2, hxb.1]
  refine (listDelBetween_run (hlive a (by simp)) hb).seq ?_
  rintro _ _ rfl
  refine (listInit_run (by exact hx)).mono ?_
  rintro _ _ rfl
  refine ⟨hr.congr hperm ?_ rfl, rfl⟩
  have hremove := links_remove S l₁ hlinks hlen hnodup hnodup'
  rw [← hT, ← List.append_assoc] at hremove
  rw [← List.cons_append, hS, List.append_assoc]
  exact hremove

theorem malloc_run [Infinite α] (alloc : Allocator α β) (hr : Ring h head as extra) :
    Runs (malloc alloc) h fun a h' ↦ Ring h' head as (a :: extra) ∧ h'.value = h.value := by
  have hfree : ∃ a, h.live a = false := by
    obtain ⟨a, ha⟩ := Infinite.exists_notMem_finset (head :: as ++ extra).toFinset
    refine ⟨a, Bool.eq_false_iff.mpr fun hlive ↦ ha ?_⟩
    exact List.mem_toFinset.mpr ((hr.live a).mp hlive)
  have hnew : alloc.pick h ∉ head :: as ++ extra := by
    rw [← hr.live, alloc.unused h hfree]
    decide
  refine runs_get_bind (runs_modify_bind (runs_pure ⟨⟨?_, hr.links, fun a ↦ ?_⟩, rfl⟩))
  · exact List.nodup_middle.mpr (List.nodup_cons.mpr ⟨hnew, hr.nodup⟩)
  · rw [List.perm_middle.mem_iff, List.mem_cons, ← hr.live]
    by_cases ha : a = alloc.pick h
    · simp [ha]
    · simp [ha]

theorem free_run (hr : Ring h head as (x :: extra)) : Runs (free x) h fun _ h' ↦
    Ring h' head as extra ∧ h'.value = h.value := by
  have hnodup := List.nodup_cons.mp (List.nodup_middle.mp hr.nodup)
  have hx : h.live x = true := (hr.live x).mpr (by simp)
  refine (check_run hx).seq ?_
  rintro _ _ rfl
  refine runs_modify ⟨⟨hnodup.2, hr.links, fun a ↦ ?_⟩, rfl⟩
  by_cases ha : a = x
  · subst ha
    simpa using hnodup.1
  · dsimp only
    rw [Function.update_of_ne ha, hr.live, List.perm_middle.mem_iff, List.mem_cons]
    simp [ha]

theorem setValue_run (hr : Ring h head as (x :: extra)) : Runs (setValue x v) h fun _ h' ↦
    Ring h' head as (x :: extra) ∧ h'.value = Function.update h.value x v := by
  refine (check_run ((hr.live x).mpr (by simp))).seq ?_
  rintro _ _ rfl
  exact runs_modify ⟨⟨hr.nodup, hr.links, hr.live⟩, rfl⟩

end Specs

end MqssdModel.Data.LinkedRing
