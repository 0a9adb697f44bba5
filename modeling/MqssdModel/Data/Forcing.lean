import MqssdModel.Data.Arrays

namespace MqssdModel.Data.Forcing

open Arrays

variable {α β : Type*}

/-- Passes the number on once it has been evaluated. A kernel that evaluates a term only where it
is used does so once, instead of once for every use. -/
def forceNat (n : ℕ) (f : ℕ → α) : α :=
  match n with
  | 0 => f 0
  | m + 1 => f (m + 1)

def forceInt (x : ℤ) (f : ℤ → α) : α :=
  match x with
  | .ofNat n => forceNat n fun n ↦ f (.ofNat n)
  | .negSucc n => forceNat n fun n ↦ f (.negSucc n)

@[simp] theorem forceNat_eq (n : ℕ) (f : ℕ → α) : forceNat n f = f n := by cases n <;> rfl

@[simp] theorem forceInt_eq (x : ℤ) (f : ℤ → α) : forceInt x f = f x := by
  cases x with
  | ofNat n => exact forceNat_eq n fun n ↦ f (.ofNat n)
  | negSucc n => exact forceNat_eq n fun n ↦ f (.negSucc n)

/-- The first `n` elements, evaluated from the last one on. -/
def forceFront (a : ℤ → ℤ) : ℕ → List ℤ → (List ℤ → α) → α
  | 0, xs, f => f xs
  | n + 1, xs, f => forceInt (a n) fun x ↦ forceFront a n (x :: xs) f

theorem forceFront_eq (a : ℤ → ℤ) (n : ℕ) (xs : List ℤ) (f : List ℤ → α) :
    forceFront a n xs f = f (front a n ++ xs) := by
  induction n generalizing xs with
  | zero => rfl
  | succ n ih =>
    rw [forceFront, forceInt_eq, ih]
    simp [front, List.range_succ]

/-- The array with the elements `xs` in front. -/
def patch (xs : List β) (a : ℤ → β) (i : ℤ) : β :=
  match i with
  | .ofNat n => (xs[n]?).getD (a i)
  | .negSucc _ => a i

theorem patch_front (a : ℤ → β) (n : ℕ) : patch (front a n) a = a := by
  funext i
  match i with
  | .negSucc _ => rfl
  | .ofNat j =>
    simp only [patch]
    cases hj : (front a n)[j]? with
    | none => rfl
    | some v => exact (getElem?_front hj).2.symm

/-- The array, with its first `n` elements evaluated. -/
def forceArray (a : ℤ → ℤ) (n : ℕ) (f : (ℤ → ℤ) → α) : α :=
  forceFront a n [] fun xs ↦ f (patch xs a)

@[simp] theorem forceArray_eq (a : ℤ → ℤ) (n : ℕ) (f : (ℤ → ℤ) → α) :
    forceArray a n f = f a := by
  rw [forceArray, forceFront_eq, List.append_nil, patch_front]

/-- A function, with its values at the given places evaluated. -/
def forceAt {κ : Type*} [DecidableEq κ] (force : β → (β → α) → α) (g : κ → β) :
    List κ → ((κ → β) → α) → α
  | [], f => f g
  | k :: ks, f => force (g k) fun b ↦
      forceAt force g ks fun g' ↦ f fun i ↦ if i = k then b else g' i

theorem forceAt_eq {κ : Type*} [DecidableEq κ] {force : β → (β → α) → α}
    (h : ∀ b f, force b f = f b) (g : κ → β) (ks : List κ) (f : (κ → β) → α) :
    forceAt force g ks f = f g := by
  induction ks generalizing f with
  | nil => rfl
  | cons k ks ih =>
    rw [forceAt, h, ih]
    congr 1
    funext i
    by_cases hi : i = k
    · rw [if_pos hi, hi]
    · rw [if_neg hi]

end MqssdModel.Data.Forcing
