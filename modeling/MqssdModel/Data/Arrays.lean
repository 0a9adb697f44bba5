import Mathlib.Data.Int.Notation
import Mathlib.Data.Nat.Notation
import Mathlib.Logic.Function.Basic
import Mathlib.Tactic.SplitIfs

namespace MqssdModel.Data.Arrays

variable {α : Type*}

/-- `n` elements of `src` from index `s` on, moved to `dst` at index `d`. -/
def blit (dst : ℤ → α) (d : ℤ) (src : ℤ → α) (s n : ℤ) : ℤ → α :=
  fun i ↦ if d ≤ i ∧ i < d + n then src (s + (i - d)) else dst i

/-- The first `n` elements. -/
def front (a : ℤ → α) (n : ℕ) : List α := (List.range n).map fun i : ℕ ↦ a i

/-- `r` elements from index `j` on, replaced by `xs`. -/
def splice (l : List α) (j : ℕ) (xs : List α) (r : ℕ) : List α :=
  l.take j ++ (xs ++ l.drop (j + r))

@[simp] theorem length_front (a : ℤ → α) (n : ℕ) : (front a n).length = n := by simp [front]

@[simp] theorem getElem_front (a : ℤ → α) (n i : ℕ) (h : i < (front a n).length) :
    (front a n)[i] = a i := by
  simp [front]

theorem head?_front {a : ℤ → α} {n : ℕ} (h : 0 < n) : (front a n).head? = some (a 0) := by
  cases n with
  | zero => omega
  | succ n => simp [front, List.range_succ_eq_map]

theorem mem_front {a : ℤ → α} {n : ℕ} {v : α} : v ∈ front a n ↔ ∃ i < n, a (i : ℕ) = v := by
  simp [front]

theorem apply_mem_front (a : ℤ → α) {n : ℕ} {i : ℤ} (h₀ : 0 ≤ i) (h : i < n) : a i ∈ front a n :=
  mem_front.mpr ⟨i.toNat, by omega, by rw [Int.toNat_of_nonneg h₀]⟩

theorem getElem?_front {a : ℤ → α} {n i : ℕ} {v : α} (h : (front a n)[i]? = some v) :
    i < n ∧ a i = v := by
  obtain ⟨hi, hv⟩ := List.getElem?_eq_some_iff.mp h
  rw [getElem_front] at hv
  exact ⟨by simpa using hi, hv⟩

theorem splice_append (l xs ms rs : List α) :
    splice (l ++ (ms ++ rs)) l.length xs ms.length = l ++ (xs ++ rs) := by
  simp [splice, List.drop_append]

theorem length_splice {l : List α} (xs : List α) {j r : ℕ} (h : j + r ≤ l.length) :
    (splice l j xs r).length + r = l.length + xs.length := by
  simp only [splice, List.length_append, List.length_take, List.length_drop]
  omega

theorem front_eq {a : ℤ → α} {n : ℕ} {l : List α} (hl : l.length = n)
    (h : ∀ (i : ℕ) (hi : i < l.length), a i = l[i]) : front a n = l :=
  List.ext_getElem (by simp [hl]) fun i _ hi ↦ by
    rw [getElem_front]
    exact h i hi

theorem front_take {a : ℤ → α} {m n : ℕ} (h : m ≤ n) : front a m = (front a n).take m :=
  front_eq (by simp; omega) fun i hi ↦ by simp

theorem front_drop {a : ℤ → α} {m n : ℕ} :
    (front a n).drop m = front (fun j ↦ a (m + j)) (n - m) := by
  refine (front_eq (by simp) fun i hi ↦ ?_).symm
  simp

theorem mem_splice_nil {a : ℤ → α} {n p : ℕ} {i : ℤ} (hp : p < n) (h₀ : 0 ≤ i) (hi : i < n)
    (hne : i ≠ p) : a i ∈ splice (front a n) p [] 1 := by
  rw [splice, List.nil_append, List.mem_append, ← front_take (by omega), front_drop]
  by_cases hlt : i < p
  · exact Or.inl (apply_mem_front a h₀ hlt)
  · refine Or.inr (mem_front.mpr ⟨(i - (p + 1)).toNat, by omega, ?_⟩)
    congr 1
    omega

theorem splice_nil_subset (l : List α) (p : ℕ) : splice l p [] 1 ⊆ l := by
  intro v hv
  rw [splice, List.nil_append, List.mem_append] at hv
  exact hv.elim List.mem_of_mem_take List.mem_of_mem_drop

section Splice

variable {a a' : ℤ → α} {xs : List α} {m n p r : ℕ}

/-- Element `i` of `splice (front a n) p xs r`. -/
def spliced (a : ℤ → α) (p : ℕ) (xs : List α) (r i : ℕ) : α :=
  if i < p then a i else if h : i - p < xs.length then xs[i - p] else a (i - xs.length + r : ℕ)

theorem getElem_splice (hp : p + r ≤ n) (i : ℕ) (hi : i < (splice (front a n) p xs r).length) :
    (splice (front a n) p xs r)[i] = spliced a p xs r i := by
  simp only [splice, spliced, List.getElem_append, List.length_take, length_front,
    List.getElem_take, List.getElem_drop, getElem_front]
  have hmin : min p n = p := by omega
  simp only [hmin]
  split_ifs with h₁ h₂
  · rfl
  · rfl
  · congr 2
    omega

theorem getElem?_splice {i : ℕ} (hp : p + r ≤ n) (hi : i + r < n + xs.length) :
    (splice (front a n) p xs r)[i]? = some (spliced a p xs r i) := by
  have hlen := length_splice xs (show p + r ≤ (front a n).length by simpa using hp)
  rw [length_front] at hlen
  rw [List.getElem?_eq_getElem (by omega), getElem_splice hp]

theorem front_eq_splice {k : ℕ} (hp : p + r ≤ n) (hk : k + r = n + xs.length)
    (h : ∀ i < k, a' i = spliced a p xs r i) : front a' k = splice (front a n) p xs r := by
  have hlen := length_splice xs (show p + r ≤ (front a n).length by simpa using hp)
  rw [length_front] at hlen
  refine front_eq (by omega) fun i hi ↦ ?_
  rw [getElem_splice hp, h i (by omega)]

theorem front_eq_take (hp : p + r ≤ n) (hm : m + r ≤ n + xs.length)
    (h : ∀ i < m, a' i = spliced a p xs r i) :
    front a' m = (splice (front a n) p xs r).take m := by
  have hlen := length_splice xs (show p + r ≤ (front a n).length by simpa using hp)
  rw [length_front] at hlen
  refine front_eq (by rw [List.length_take]; omega) fun i hi ↦ ?_
  rw [List.length_take] at hi
  rw [List.getElem_take, getElem_splice hp, h i (by omega)]

theorem front_eq_drop {k : ℕ} (hp : p + r ≤ n) (hk : m + k + r = n + xs.length)
    (h : ∀ i < k, a' i = spliced a p xs r (m + i)) :
    front a' k = (splice (front a n) p xs r).drop m := by
  have hlen := length_splice xs (show p + r ≤ (front a n).length by simpa using hp)
  rw [length_front] at hlen
  refine front_eq (by rw [List.length_drop]; omega) fun i hi ↦ ?_
  rw [List.length_drop] at hi
  rw [List.getElem_drop, getElem_splice hp, h i (by omega)]

end Splice

end MqssdModel.Data.Arrays
