import Mathlib.Data.Nat.Digits.Defs
import Mathlib.Algebra.BigOperators.Group.List.Basic
import MqssdModel.Tiering.Window

namespace MqssdModel.Tiering.Digits

open Picker Schedule Window

variable {F : ℕ}

/-- The flush counts of the runs described by digits, least significant first: `d` runs
of `F ^ i` flushes for the digit `d` at position `i`. -/
def tierCounts (F : ℕ) : ℕ → List ℕ → List ℕ
  | _, [] => []
  | i, d :: ds => List.replicate d (F ^ i) ++ tierCounts F (i + 1) ds

/-- Digits in which only the least nonzero one may have reached the base. -/
def Carry (F : ℕ) : List ℕ → Prop
  | [] => True
  | d :: ds => (d ≤ F ∧ ∀ x ∈ ds, x < F) ∨ (d = 0 ∧ Carry F ds)

def addOne : List ℕ → List ℕ
  | [] => [1]
  | d :: ds => (d + 1) :: ds

theorem carry_addOne (hF : 2 ≤ F) {ds : List ℕ} (h : ∀ x ∈ ds, x < F) : Carry F (addOne ds) := by
  cases ds with
  | nil => exact .inl ⟨by omega, by simp⟩
  | cons d ds =>
    exact .inl ⟨h d List.mem_cons_self, fun x hx ↦ h x (List.mem_cons_of_mem d hx)⟩

theorem tierCounts_addOne (i : ℕ) (ds : List ℕ) :
    tierCounts F i (addOne ds) = F ^ i :: tierCounts F i ds := by
  cases ds with
  | nil => rfl
  | cons d ds => rfl

theorem ofDigits_addOne (ds : List ℕ) :
    Nat.ofDigits F (addOne ds) = Nat.ofDigits F ds + 1 := by
  cases ds with
  | nil => simp [addOne]
  | cons d ds =>
    simp only [addOne, Nat.ofDigits_cons]
    omega

theorem length_tierCounts (i : ℕ) (ds : List ℕ) : (tierCounts F i ds).length = ds.sum := by
  induction ds generalizing i with
  | nil => rfl
  | cons d ds ih => rw [tierCounts, List.length_append, List.length_replicate, ih, List.sum_cons]

theorem pow_le_of_mem {i c : ℕ} {ds : List ℕ} (hF : 0 < F) (h : c ∈ tierCounts F i ds) :
    F ^ i ≤ c := by
  induction ds generalizing i with
  | nil => simp [tierCounts] at h
  | cons d ds ih =>
    rcases List.mem_append.mp h with h | h
    · exact (List.eq_of_mem_replicate h).ge
    · exact (Nat.pow_le_pow_right hF (Nat.le_succ i)).trans (ih h)

/-- The oldest run lies in the first tier exactly when no older tier has a run. -/
theorem tierCounts_last {i d b : ℕ} {ds L : List ℕ} (h : tierCounts F i (d :: ds) = L ++ [b]) :
    (b = F ^ i ∧ L.sum + b = d * F ^ i) ∨
      ∃ L', tierCounts F (i + 1) ds = L' ++ [b] ∧ L.sum = d * F ^ i + L'.sum := by
  rcases List.eq_nil_or_concat (tierCounts F (i + 1) ds) with he | ⟨L', b', he⟩
  · rw [tierCounts, he, List.append_nil] at h
    have hb : b ∈ List.replicate d (F ^ i) := by rw [h]; simp
    have hsum := congrArg List.sum h
    simp only [List.sum_replicate, nsmul_eq_mul, Nat.cast_id, List.sum_append,
      List.sum_singleton] at hsum
    exact .inl ⟨List.eq_of_mem_replicate hb, hsum.symm⟩
  · rw [List.concat_eq_append] at he
    rw [tierCounts, he, ← List.append_assoc] at h
    obtain ⟨hL, hb⟩ := List.append_inj' h rfl
    have hsum := congrArg List.sum hL
    simp only [List.sum_append, List.sum_replicate, nsmul_eq_mul, Nat.cast_id] at hsum
    exact .inr ⟨L', by rw [he, hb], hsum.symm⟩

/-- With all digits below the base, everything weighs less than the base times the
oldest run. -/
theorem sum_tierCounts_lt {i b : ℕ} {ds L : List ℕ} (hd : ∀ x ∈ ds, x < F)
    (h : tierCounts F i ds = L ++ [b]) : L.sum + b + F ^ i ≤ F * b := by
  induction ds generalizing i L with
  | nil => simp [tierCounts] at h
  | cons d ds ih =>
    have hmul : d * F ^ i + F ^ i ≤ F * F ^ i := by
      rw [← Nat.succ_mul]
      exact Nat.mul_le_mul_right _ (hd d List.mem_cons_self)
    rcases tierCounts_last h with ⟨rfl, hs⟩ | ⟨L', he, hs⟩
    · omega
    · have h' := ih (fun x hx ↦ hd x (List.mem_cons_of_mem d hx)) he
      rw [pow_succ, Nat.mul_comm (F ^ i) F] at h'
      omega

theorem sum_tierCounts_le {i b : ℕ} {ds L : List ℕ} (hd : Carry F ds)
    (h : tierCounts F i ds = L ++ [b]) : L.sum + b ≤ F * b := by
  induction ds generalizing i with
  | nil => simp [tierCounts] at h
  | cons d ds ih =>
    rcases hd with ⟨hle, hlt⟩ | ⟨rfl, hc⟩
    · have hmul : d * F ^ i ≤ F * F ^ i := Nat.mul_le_mul_right _ hle
      rcases tierCounts_last h with ⟨rfl, hs⟩ | ⟨L', he, hs⟩
      · omega
      · have h' := sum_tierCounts_lt hlt he
        rw [pow_succ, Nat.mul_comm (F ^ i) F] at h'
        omega
    · exact ih hc (by simpa [tierCounts] using h)

/-- Digits written with trailing zeros describe the same runs. -/
theorem tierCounts_digits (hF : 2 ≤ F) (i : ℕ) {ds : List ℕ} (hd : ∀ x ∈ ds, x < F) :
    tierCounts F i (Nat.digits F (Nat.ofDigits F ds)) = tierCounts F i ds := by
  induction ds generalizing i with
  | nil => simp
  | cons d ds ih =>
    have ih' := fun i ↦ ih i (fun x hx ↦ hd x (List.mem_cons_of_mem d hx))
    have hlt : d < F := hd d List.mem_cons_self
    rw [Nat.ofDigits_cons]
    rcases Nat.eq_zero_or_pos (d + F * Nat.ofDigits F ds) with hz | hp
    · have hd0 : d = 0 := by omega
      have hds : Nat.ofDigits F ds = 0 := by
        rcases Nat.mul_eq_zero.mp (by omega : F * Nat.ofDigits F ds = 0) with h | h
        · omega
        · exact h
      have h := ih' (i + 1)
      rw [hds, Nat.digits_zero] at h
      rw [hz, Nat.digits_zero]
      simp [tierCounts, hd0, ← h]
    · rw [Nat.digits_add F hF d _ hlt (by
        by_contra! hc
        obtain ⟨rfl, hds⟩ := hc
        rw [hds] at hp
        simp at hp)]
      rw [tierCounts, tierCounts, ih']

end MqssdModel.Tiering.Digits
