import MqssdModel.Data.Arrays

namespace MqssdModel.Data.Moves

open Arrays

variable {α : Type*} {a g : ℤ → α} {k m p r : ℕ} {v : α}

section Insert

theorem front_insert (hp : p ≤ k) :
    front (Function.update (blit a (p + 1) a p (k - p)) p v) (k + 1) =
      splice (front a k) p [v] 0 := by
  refine front_eq_splice hp rfl fun i _ ↦ ?_
  simp only [spliced, blit, Function.update_apply, List.length_singleton, List.getElem_singleton]
  split_ifs <;> first | rfl | omega | (congr 1; omega)

/-- The front part of an insertion into a full array, built in another array. -/
theorem front_insert_take (hp : p < m) (hm : m ≤ k + 1) :
    front (blit (Function.update (blit g 0 a 0 p) p v) (p + 1) a p (m - p - 1)) m =
      (splice (front a k) p [v] 0).take m := by
  refine front_eq_take (by omega) hm fun i _ ↦ ?_
  simp only [spliced, blit, Function.update_apply, List.length_singleton, List.getElem_singleton]
  split_ifs <;> first | rfl | omega | (congr 1; omega)

theorem front_insert_drop (hp : p < m) (hm : m ≤ k + 1) :
    front (blit a 0 a (m - 1) (k - m + 1)) (k + 1 - m) =
      (splice (front a k) p [v] 0).drop m := by
  refine front_eq_drop (by omega) (by simp; omega) fun i _ ↦ ?_
  simp only [spliced, blit, List.length_singleton, List.getElem_singleton]
  split_ifs <;> first | rfl | omega | (congr 1; omega)

theorem front_take_insert (hp : m ≤ p) (hk : p ≤ k) :
    front a m = (splice (front a k) p [v] 0).take m := by
  refine front_eq_take hk (by omega) fun i _ ↦ ?_
  simp only [spliced]
  split_ifs <;> first | rfl | omega

/-- The back part of an insertion into a full array, built in another array. -/
theorem front_drop_insert {z d : ℤ} {n : ℕ} (hn : m + n = k + 1) (hz : z = p - m) (hd : d = m)
    (hk : p ≤ k) :
    front (blit (Function.update (blit g 0 a d z) z v) (z + 1) a p (k - p)) n =
      (splice (front a k) p [v] 0).drop m := by
  subst hz hd
  refine front_eq_drop hk hn fun i _ ↦ ?_
  simp only [spliced, blit, Function.update_apply, List.length_singleton, List.getElem_singleton]
  split_ifs <;> first | rfl | omega | (congr 1; omega)

/-- As `front_insert_take`, with the new element written last. -/
theorem front_insert_take_last (hp : p < m) (hm : m ≤ k) :
    front (Function.update (blit (blit g 0 a 0 p) (p + 1) a p (m - p)) p v) m =
      (splice (front a k) p [v] 0).take m := by
  refine front_eq_take (by omega) (by omega) fun i _ ↦ ?_
  simp only [spliced, blit, Function.update_apply, List.length_singleton, List.getElem_singleton]
  split_ifs <;> first | rfl | omega | (congr 1; omega)

theorem front_insert_drop_succ (hp : p ≤ m) (hm : m ≤ k) :
    front (blit a 0 a m (k - m)) (k - m) = (splice (front a k) p [v] 0).drop (m + 1) := by
  refine front_eq_drop (by omega) (by simp; omega) fun i _ ↦ ?_
  simp only [spliced, blit, List.length_singleton, List.getElem_singleton]
  split_ifs <;> first | rfl | omega | (congr 1; omega)

theorem front_cons_drop (hm : m ≤ k) :
    front (blit (Function.update g 0 v) 1 a m (k - m)) (k + 1 - m) =
      (splice (front a k) m [v] 0).drop m := by
  refine front_eq_drop hm (by simp; omega) fun i _ ↦ ?_
  simp only [spliced, blit, Function.update_apply, List.length_singleton, List.getElem_singleton]
  split_ifs <;> first | rfl | omega | (congr 1; omega)

end Insert

section Replace

variable {x y : α}

theorem front_replace (hp : p ≤ k) :
    front (Function.update (Function.update (blit a (p + 2) a (p + 1) (k - p)) p x) (p + 1) y)
      (k + 2) = splice (front a (k + 1)) p [x, y] 1 := by
  refine front_eq_splice (by omega) rfl fun i _ ↦ ?_
  simp only [spliced, blit, Function.update_apply, List.length_cons, List.length_nil,
    List.getElem_cons]
  split_ifs <;> first | rfl | omega | (congr 1; omega)

theorem front_replace_take (hp : p < m) (hm : m ≤ k) :
    front (Function.update (Function.update (blit (blit g 0 a 0 p) (p + 1) a p (m - p)) p x)
      (p + 1) y) (m + 1) = (splice (front a (k + 1)) p [x, y] 1).take (m + 1) := by
  refine front_eq_take (by omega) (by simp; omega) fun i _ ↦ ?_
  simp only [spliced, blit, Function.update_apply, List.length_cons, List.length_nil,
    List.getElem_cons]
  split_ifs <;> first | rfl | omega | (congr 1; omega)

theorem front_replace_drop (hp : p < m) (hm : m ≤ k) :
    front (blit (Function.update a 0 (a m)) 1 (Function.update a 0 (a m)) (m + 1) (k - m))
      (k + 1 - m) = (splice (front a (k + 1)) p [x, y] 1).drop (m + 1) := by
  refine front_eq_drop (by omega) (by simp; omega) fun i _ ↦ ?_
  simp only [spliced, blit, Function.update_apply, List.length_cons, List.length_nil,
    List.getElem_cons]
  split_ifs <;> first | rfl | omega | (congr 1; omega)

theorem front_take_replace (hp : m ≤ p) (hk : p ≤ k) :
    front a m = (splice (front a (k + 1)) p [x, y] 1).take m := by
  refine front_eq_take (by omega) (by simp; omega) fun i _ ↦ ?_
  simp only [spliced]
  split_ifs <;> first | rfl | omega

theorem front_drop_replace {z d : ℤ} {n : ℕ} (hn : m + n = k + 2) (hz : z = p - m) (hd : d = m)
    (hk : p ≤ k) :
    front (blit (Function.update (Function.update (blit g 0 a d z) z x) (z + 1) y) (z + 2) a
      (p + 1) (k - p)) n = (splice (front a (k + 1)) p [x, y] 1).drop m := by
  subst hz hd
  refine front_eq_drop (by omega) (by simp; omega) fun i _ ↦ ?_
  simp only [spliced, blit, Function.update_apply, List.length_cons, List.length_nil,
    List.getElem_cons]
  split_ifs <;> first | rfl | omega | (congr 1; omega)

theorem front_cons_cons_drop (hm : m ≤ k) :
    front (blit (Function.update (Function.update g 0 x) 1 y) 2 a (m + 1) (k - m)) (k + 2 - m) =
      (splice (front a (k + 1)) m [x, y] 1).drop m := by
  refine front_eq_drop (by omega) (by simp; omega) fun i _ ↦ ?_
  simp only [spliced, blit, Function.update_apply, List.length_cons, List.length_nil,
    List.getElem_cons]
  split_ifs <;> first | rfl | omega | (congr 1; omega)

/-- Two adjacent elements with what stands before and behind them. -/
theorem front_pair (hp : p + 1 < k) (hx : a p = x) (hy : a (p + 1) = y) :
    front a k = front a p ++ x :: y :: front (fun j ↦ a (p + 2 + j)) (k - (p + 2)) := by
  subst hx hy
  refine front_eq (by simp; omega) fun i hi ↦ ?_
  simp only [List.getElem_append, List.getElem_cons, length_front, getElem_front]
  split_ifs <;> first | rfl | (congr 1; omega)

theorem front_cons_cons (hk : 1 < k) (hx : a 0 = x) (hy : a 1 = y) :
    front a k = x :: y :: front (fun j ↦ a (2 + j)) (k - 2) :=
  front_pair (p := 0) hk hx hy

theorem front_update_pair (hp : p + 1 < k) :
    front (Function.update (Function.update a p x) (p + 1) y) k =
      front a p ++ x :: y :: front (fun j ↦ a (p + 2 + j)) (k - (p + 2)) := by
  refine front_eq (by simp; omega) fun i hi ↦ ?_
  simp only [List.getElem_append, List.getElem_cons, length_front, getElem_front,
    Function.update_apply]
  split_ifs <;> first | rfl | omega | (congr 1; omega)

end Replace

section Remove

theorem length_remove (hr : r < k) : (splice (front a k) r [] 1).length = k - 1 := by
  have hlen := length_splice [] (show r + 1 ≤ (front a k).length by rw [length_front]; exact hr)
  rw [length_front, List.length_nil] at hlen
  omega

theorem getElem_remove (hr : r < k) (i : ℕ) (hi : i < (splice (front a k) r [] 1).length) :
    (splice (front a k) r [] 1)[i] = spliced a r [] 1 i :=
  getElem_splice hr i hi

theorem front_remove {i j w : ℤ} {n : ℕ} (hr : r < k) (hn : n + 1 = k) (hi : i = r)
    (hj : j = r + 1) (hw : w = k - r - 1) :
    front (blit a i a j w) n = splice (front a k) r [] 1 := by
  subst hi hj hw
  refine front_eq_splice hr hn fun i _ ↦ ?_
  simp only [spliced, blit, List.length_nil]
  split_ifs <;> first | rfl | omega | (congr 1; omega)

theorem front_cons_remove {w : ℤ} (hr : r < k) (hw : w = r) :
    front (Function.update (blit a 1 a 0 w) 0 v) k = v :: splice (front a k) r [] 1 := by
  subst hw
  have hlen : (splice (front a k) r [] 1).length = k - 1 := length_remove hr
  refine front_eq (by rw [List.length_cons]; omega) fun i hi ↦ ?_
  rw [List.length_cons] at hi
  cases i with
  | zero => simp
  | succ i =>
    rw [List.getElem_cons_succ, getElem_remove hr]
    simp only [spliced, blit, Function.update_apply, List.length_nil]
    split_ifs <;> first | rfl | omega | (congr 1; omega)

theorem front_append_remove {i u d w j : ℤ} {n : ℕ} (hr : r < k) (hn : n + 1 = m + k) (hi : i = m)
    (hu : u = r) (hd : d = m + r) (hj : j = r + 1) (hw : w = k - r - 1) :
    front (blit (blit g i a 0 u) d a j w) n = front g m ++ splice (front a k) r [] 1 := by
  subst hi hu hd hj hw
  have hlen : (splice (front a k) r [] 1).length = k - 1 := length_remove hr
  refine front_eq (by rw [List.length_append, length_front]; omega) fun i hi ↦ ?_
  rw [List.length_append, length_front] at hi
  rw [List.getElem_append]
  simp only [length_front, getElem_front, getElem_remove hr, spliced, blit,
    List.length_nil]
  split_ifs <;> first | rfl | omega | (congr 1; omega)

end Remove

section Join

theorem front_concat : front (Function.update a k v) (k + 1) = front a k ++ [v] := by
  refine front_eq (by simp) fun i hi ↦ ?_
  rw [List.length_append, length_front, List.length_singleton] at hi
  simp only [List.getElem_append, length_front, getElem_front, Function.update_apply,
    List.getElem_singleton]
  split_ifs <;> first | rfl | omega

theorem front_succ_inj {l : List α} (h : front a (k + 1) = l ++ [v]) : front a k = l ∧ a k = v := by
  have hs : front a (k + 1) = front a k ++ [a k] := by simp [front, List.range_succ]
  rw [hs] at h
  obtain ⟨hl, hv⟩ := List.append_inj' h rfl
  exact ⟨hl, List.singleton_inj.mp hv⟩

theorem front_set (hp : p < k) :
    front (Function.update a p v) k = splice (front a k) p [v] 1 := by
  refine front_eq_splice hp rfl fun i _ ↦ ?_
  simp only [spliced, Function.update_apply, List.length_singleton, List.getElem_singleton]
  split_ifs <;> first | rfl | omega | (congr 1; omega)

theorem front_head {l : List α} (h : front a k = v :: l) : a 0 = v := by
  have hk : 0 < k := by
    have hlen := congrArg List.length h
    rw [length_front, List.length_cons] at hlen
    omega
  have hh := head?_front (a := a) hk
  rw [h, List.head?_cons, Option.some.injEq] at hh
  exact hh.symm

theorem front_cons_inj {l : List α} (h : front a (k + 1) = v :: l) :
    a 0 = v ∧ front (blit a 0 a 1 k) k = l := by
  have hlen := congrArg List.length h
  rw [length_front, List.length_cons] at hlen
  refine ⟨front_head h, front_eq (by omega) fun i hi ↦ ?_⟩
  have hget : (front a (k + 1))[i + 1]? = l[i]? := by rw [h, List.getElem?_cons_succ]
  rw [List.getElem?_eq_getElem (by simp; omega), List.getElem?_eq_getElem hi, getElem_front,
    Option.some.injEq] at hget
  rw [← hget, blit, if_pos (by omega)]
  congr 1
  omega

theorem front_append {i w : ℤ} {n : ℕ} (hn : n = k + m) (hi : i = k) (hw : w = m) :
    front (blit a i g 0 w) n = front a k ++ front g m := by
  subst hn hi hw
  refine front_eq (by simp) fun i hi ↦ ?_
  rw [List.length_append, length_front, length_front] at hi
  simp only [List.getElem_append, length_front, getElem_front, blit]
  split_ifs <;> first | rfl | omega | (congr 1; omega)

end Join

end MqssdModel.Data.Moves
