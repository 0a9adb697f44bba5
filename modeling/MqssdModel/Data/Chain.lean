import Mathlib.Data.List.Nodup

namespace MqssdModel.Data.Chain

variable {ι : Type*} {link link' : ι → Option (ι × ι)} {p q m : ι} {xs ys : List ι}

/-- The nodes are doubly linked in this order, between `p` and `q`. -/
def Linked (link : ι → Option (ι × ι)) : ι → List ι → ι → Prop
  | _, [], _ => True
  | p, o :: os, q => link o = some (p, os.headD q) ∧ Linked link o os q

theorem linked_append : Linked link p (xs ++ ys) q ↔
    Linked link p xs (ys.headD q) ∧ Linked link (xs.getLastD p) ys q := by
  induction xs generalizing p with
  | nil => simp [Linked]
  | cons x xs ih =>
    have hd : (xs ++ ys).headD q = xs.headD (ys.headD q) := by cases xs <;> rfl
    simp only [List.cons_append, Linked, ih, hd, List.getLastD_cons, and_assoc]

theorem Linked.congr (h : Linked link p xs q) (he : ∀ o ∈ xs, link' o = link o) :
    Linked link' p xs q := by
  induction xs generalizing p with
  | nil => trivial
  | cons x xs ih =>
    exact ⟨(he x List.mem_cons_self).trans h.1,
      ih h.2 fun o ho ↦ he o (List.mem_cons_of_mem _ ho)⟩

theorem Linked.middle {o : ι} (h : Linked link p (xs ++ o :: ys) q) :
    link o = some (xs.getLastD p, ys.headD q) :=
  (linked_append.mp h).2.1

variable [DecidableEq ι]

/-- The first node gets another predecessor. -/
theorem Linked.set_prev {e : ι} (h : Linked link p xs q) (hn : xs.Nodup)
    (he : ∀ o ∈ xs, link' o = if o = xs.headD e then (link o).map fun l ↦ (m, l.2) else link o) :
    Linked link' m xs q := by
  cases xs with
  | nil => trivial
  | cons x xs =>
    obtain ⟨hx, hxs⟩ := h
    refine ⟨?_, hxs.congr fun o ho ↦ ?_⟩
    · rw [he x List.mem_cons_self, List.headD_cons, if_pos rfl, hx]
      rfl
    · have hne : o ≠ x := fun heq ↦ (List.nodup_cons.mp hn).1 (heq ▸ ho)
      rw [he o (List.mem_cons_of_mem _ ho), List.headD_cons, if_neg hne]

/-- The last node gets another successor. -/
theorem Linked.set_next {e : ι} (h : Linked link p xs q) (hn : xs.Nodup)
    (he : ∀ o ∈ xs, link' o =
      if o = xs.getLastD e then (link o).map fun l ↦ (l.1, m) else link o) :
    Linked link' p xs m := by
  induction xs generalizing p with
  | nil => trivial
  | cons x xs ih =>
    obtain ⟨hx, hxs⟩ := h
    cases xs with
    | nil =>
      refine ⟨?_, trivial⟩
      rw [he x List.mem_cons_self, List.getLastD_cons, List.getLastD_nil, if_pos rfl, hx]
      rfl
    | cons y ys =>
      have hlast : (x :: y :: ys).getLastD e = (y :: ys).getLastD e := by
        simp
      have hne : x ≠ (y :: ys).getLastD e := by
        intro heq
        refine (List.nodup_cons.mp hn).1 (heq ▸ ?_)
        rw [List.getLastD_eq_getLast?, List.getLast?_eq_some_getLast (List.cons_ne_nil _ _)]
        exact List.getLast_mem _
      refine ⟨?_, ih hxs (List.nodup_cons.mp hn).2 fun o ho ↦ ?_⟩
      · rw [he x List.mem_cons_self, hlast, if_neg hne, hx]
        rfl
      · rw [he o (List.mem_cons_of_mem _ ho), hlast]

section Splices

variable {o a b e : ι}

theorem Linked.insert_right (h : Linked link p (xs ++ o :: ys) q) (hn : (xs ++ o :: ys).Nodup)
    (hxs : ∀ x ∈ xs, link' x = link x) (ho : link' o = some (xs.getLastD p, m))
    (hm : link' m = some (o, ys.headD q))
    (hys : ∀ y ∈ ys, link' y = if y = ys.headD e then (link y).map fun l ↦ (m, l.2) else link y) :
    Linked link' p (xs ++ o :: m :: ys) q := by
  obtain ⟨hl, -, hr⟩ := linked_append.mp h
  have hnys : ys.Nodup := (List.nodup_cons.mp hn.of_append_right).2
  exact linked_append.mpr ⟨hl.congr hxs, ho, hm, hr.set_prev hnys hys⟩

theorem Linked.insert_left (h : Linked link p (xs ++ o :: ys) q) (hn : (xs ++ o :: ys).Nodup)
    (hxs : ∀ x ∈ xs, link' x =
      if x = xs.getLastD e then (link x).map fun l ↦ (l.1, m) else link x)
    (hm : link' m = some (xs.getLastD p, o)) (ho : link' o = some (m, ys.headD q))
    (hys : ∀ y ∈ ys, link' y = link y) : Linked link' p (xs ++ m :: o :: ys) q := by
  obtain ⟨hl, -, hr⟩ := linked_append.mp h
  exact linked_append.mpr ⟨hl.set_next hn.of_append_left hxs, hm, ho, hr.congr hys⟩

theorem Linked.delete (h : Linked link p (xs ++ a :: b :: ys) q)
    (hn : (xs ++ a :: b :: ys).Nodup) (hxs : ∀ x ∈ xs, link' x = link x)
    (ha : link' a = some (xs.getLastD p, ys.headD q))
    (hys : ∀ y ∈ ys, link' y = if y = ys.headD e then (link y).map fun l ↦ (a, l.2) else link y) :
    Linked link' p (xs ++ a :: ys) q := by
  obtain ⟨hl, -, -, hr⟩ := linked_append.mp h
  have hnys : ys.Nodup := (List.nodup_cons.mp (List.nodup_cons.mp hn.of_append_right).2).2
  exact linked_append.mpr ⟨hl.congr hxs, ha, hr.set_prev hnys hys⟩

end Splices

end MqssdModel.Data.Chain
