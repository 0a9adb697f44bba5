import Mathlib.Data.List.Basic

namespace MqssdModel.Data.Blocks

variable {α : Type*} {p : α → Bool} {l l' a b c : List α} {x : α}

/-- Between two elements with the property there is none without it. -/
def Contiguous (p : α → Bool) (l : List α) : Prop := ¬[true, false, true].Sublist (l.map p)

theorem Contiguous.sublist (h : Contiguous p l) (hs : (l'.map p).Sublist (l.map p)) :
    Contiguous p l' := fun h' ↦ h (h'.trans hs)

theorem contiguous_of_none (h : ∀ x ∈ l, p x = false) : Contiguous p l := by
  intro hs
  obtain ⟨x, hx, hp⟩ := List.mem_map.mp (hs.subset (show true ∈ [true, false, true] by simp))
  rw [h x hx] at hp
  cases hp

theorem contiguous_cons (hx : p x = false) (h : Contiguous p l) : Contiguous p (x :: l) := by
  intro hs
  rw [List.map_cons, hx] at hs
  cases hs with
  | cons _ hs => exact h hs

theorem not_rising (hb : ∀ x ∈ b, p x = true) (hc : ∀ x ∈ c, p x = false) :
    ¬[false, true].Sublist ((b ++ c).map p) := by
  induction b with
  | nil =>
    intro hs
    obtain ⟨x, hx, hp⟩ := List.mem_map.mp (hs.subset (show true ∈ [false, true] by simp))
    rw [hc x hx] at hp
    cases hp
  | cons y b ih =>
    intro hs
    rw [List.cons_append, List.map_cons, hb y List.mem_cons_self] at hs
    cases hs with
    | cons _ hs => exact ih (fun x hx ↦ hb x (List.mem_cons_of_mem y hx)) hs

/-- A block of elements with the property. -/
theorem contiguous_block (ha : ∀ x ∈ a, p x = false) (hb : ∀ x ∈ b, p x = true)
    (hc : ∀ x ∈ c, p x = false) : Contiguous p (a ++ (b ++ c)) := by
  induction a with
  | nil =>
    rw [List.nil_append]
    induction b with
    | nil => exact contiguous_of_none hc
    | cons y b ih =>
      intro hs
      rw [List.cons_append, List.map_cons, hb y List.mem_cons_self] at hs
      cases hs with
      | cons _ hs => exact ih (fun x hx ↦ hb x (List.mem_cons_of_mem y hx)) hs
      | cons_cons _ hs => exact not_rising (fun x hx ↦ hb x (List.mem_cons_of_mem y hx)) hc hs
  | cons y a ih =>
    exact contiguous_cons (ha y List.mem_cons_self) (ih fun x hx ↦ ha x (List.mem_cons_of_mem y hx))

/-- Elements without the property are replaced by a single one. -/
theorem Contiguous.replace (h : Contiguous p (a ++ b ++ c)) (hne : b ≠ [])
    (hb : ∀ x ∈ b, p x = false) (hx : p x = false) : Contiguous p (a ++ x :: c) := by
  refine h.sublist ?_
  obtain ⟨y, b, rfl⟩ := List.exists_cons_of_ne_nil hne
  simp only [List.map_append, List.map_cons, List.append_assoc, List.cons_append, hx,
    hb y List.mem_cons_self]
  exact (List.Sublist.refl _).append ((List.sublist_append_right _ _).cons_cons _)

theorem Contiguous.exists_block (h : Contiguous p l) :
    ∃ a b c, l = a ++ b ++ c ∧ (∀ x ∈ b, p x = true) ∧ ∀ x ∈ a ++ c, p x = false := by
  induction l with
  | nil => exact ⟨[], [], [], rfl, by simp, by simp⟩
  | cons y l ih =>
    have hl : Contiguous p l := h.sublist (List.sublist_cons_self _ _)
    obtain ⟨a, b, c, rfl, hb, hac⟩ := ih hl
    cases hy : p y with
    | false =>
      refine ⟨y :: a, b, c, rfl, hb, fun x hx ↦ ?_⟩
      rcases List.mem_cons.mp hx with rfl | hx
      · exact hy
      · exact hac x hx
    | true =>
      cases a with
      | nil =>
        refine ⟨[], y :: b, c, rfl, fun x hx ↦ ?_, hac⟩
        rcases List.mem_cons.mp hx with rfl | hx
        · exact hy
        · exact hb x hx
      | cons z a =>
        -- then the block behind `z` is empty
        cases b with
        | nil =>
          refine ⟨[], [y], z :: a ++ c, by simp, by simp [hy], fun x hx ↦ ?_⟩
          exact hac x (by simpa using hx)
        | cons w b =>
          exfalso
          refine h ?_
          have hz := hac z (by simp)
          have hw := hb w List.mem_cons_self
          simp only [List.map_cons, List.map_append, List.cons_append, hy, hz]
          refine ((List.singleton_sublist.mpr ?_).cons_cons _).cons_cons _
          simp [hw]

end MqssdModel.Data.Blocks
