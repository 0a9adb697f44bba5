import Mathlib.Data.Nat.Notation
import Mathlib.Data.List.Basic
import Mathlib.Data.Nat.Bitwise
import Mathlib.Tactic.SplitIfs

namespace MqssdModel.Data.PackedBits

/-- The bit `i` of a sequence of bytes, the most significant bit of each byte first. -/
def bit (bytes : List UInt8) (i : ℕ) : Option Bool :=
  (bytes[i / 8]?).map fun b ↦ b.toNat.testBit (7 - i % 8)

def flipBit (bytes : List UInt8) (i : ℕ) : List UInt8 :=
  bytes.modify (i / 8) fun b ↦ b ^^^ 1 <<< (7 - UInt8.ofNat (i % 8))

/-- Sets the bit `i`, by flipping it if it is not set. -/
def raise (bytes : List UInt8) (i : ℕ) : List UInt8 :=
  if bit bytes i = some false then flipBit bytes i else bytes

theorem toNat_seven_sub {m : ℕ} (hm : m < 8) : (7 - UInt8.ofNat m).toNat = 7 - m := by
  have h : (UInt8.ofNat m).toNat = m := by
    rw [UInt8.toNat_ofNat']
    omega
  rw [UInt8.toNat_sub_of_le]
  · rw [h]
    rfl
  · rw [UInt8.le_iff_toNat_le, h]
    change m ≤ 7
    omega

theorem testBit_shiftRight_and_one (b s : UInt8) (hs : s.toNat < 8) :
    (b >>> s &&& 1 = 1) ↔ b.toNat.testBit s.toNat = true := by
  rw [← UInt8.toNat_inj, UInt8.toNat_and, UInt8.toNat_shiftRight, Nat.mod_eq_of_lt hs,
    Nat.testBit, Nat.and_comm]
  change 1 &&& b.toNat >>> s.toNat = 1 ↔ _
  rw [Nat.one_and_eq_mod_two]
  rcases Nat.mod_two_eq_zero_or_one (b.toNat >>> s.toNat) with h | h
  · simp [h]
  · simp [h]

theorem testBit_xor_shiftLeft (b s : UInt8) (hs : s.toNat < 8) {k : ℕ} (hk : k < 8) :
    (b ^^^ 1 <<< s).toNat.testBit k = (b.toNat.testBit k ^^ decide (s.toNat = k)) := by
  rw [UInt8.toNat_xor, UInt8.toNat_shiftLeft, Nat.mod_eq_of_lt hs, Nat.testBit_xor]
  congr 1
  change ((1 <<< s.toNat) % 2 ^ 8).testBit k = _
  rw [Nat.testBit_mod_two_pow, Nat.one_shiftLeft, Nat.testBit_two_pow]
  simp [hk]

variable {bytes : List UInt8}

theorem length_flipBit (i : ℕ) : (flipBit bytes i).length = bytes.length := List.length_modify _ _ _

theorem length_raise (i : ℕ) : (raise bytes i).length = bytes.length := by
  unfold raise
  split_ifs
  · exact length_flipBit i
  · rfl

theorem bit_flipBit (i j : ℕ) :
    bit (flipBit bytes i) j = (bit bytes j).map fun b ↦ b ^^ decide (i = j) := by
  unfold bit flipBit
  rw [List.getElem?_modify, Option.map_eq_map, Option.map_map, Option.map_map]
  congr 1
  funext b
  simp only [Function.comp_apply]
  have hi : i % 8 < 8 := Nat.mod_lt _ (by omega)
  have hs := toNat_seven_sub hi
  split_ifs with h
  · rw [testBit_xor_shiftLeft _ _ (by omega) (by omega), hs]
    congr 2
    exact propext ⟨fun _ ↦ by omega, fun _ ↦ by omega⟩
  · rw [decide_eq_false (by rintro rfl; exact h rfl), Bool.xor_false]

theorem length_foldl_raise (is : List ℕ) : (is.foldl raise bytes).length = bytes.length := by
  induction is generalizing bytes with
  | nil => rfl
  | cons i is ih => rw [List.foldl_cons, ih, length_raise]

theorem bit_eq_none {i : ℕ} : bit bytes i = none ↔ 8 * bytes.length ≤ i := by
  unfold bit
  rw [Option.map_eq_none_iff, List.getElem?_eq_none_iff]
  omega

theorem bit_raise (i j : ℕ) : bit (raise bytes i) j =
    if j = i ∧ j < 8 * bytes.length then some true else bit bytes j := by
  unfold raise
  by_cases h : bit bytes i = some false
  · rw [if_pos h, bit_flipBit]
    by_cases hj : j = i
    · subst hj
      have hlt : j < 8 * bytes.length := by
        by_contra hc
        rw [bit_eq_none.mpr (by omega)] at h
        cases h
      simp [h, hlt]
    · simp [hj, Ne.symm hj]
  · rw [if_neg h]
    split_ifs with hj
    · obtain ⟨rfl, hlt⟩ := hj
      cases hb : bit bytes j with
      | none =>
        have := bit_eq_none.mp hb
        omega
      | some b =>
        cases b with
        | false => exact absurd hb h
        | true => rfl
    · rfl

theorem bit_foldl_raise (is : List ℕ) (j : ℕ) : bit (is.foldl raise bytes) j =
    if j ∈ is ∧ j < 8 * bytes.length then some true else bit bytes j := by
  induction is generalizing bytes with
  | nil => simp
  | cons i is ih =>
    rw [List.foldl_cons, ih, length_raise, bit_raise]
    simp only [List.mem_cons]
    split_ifs <;> grind

theorem take_foldl_raise {n : ℕ} {is : List ℕ} (h : ∀ i ∈ is, 8 * n ≤ i) :
    (is.foldl raise bytes).take n = bytes.take n := by
  induction is generalizing bytes with
  | nil => rfl
  | cons i is ih =>
    rw [List.foldl_cons, ih fun j hj ↦ h j (List.mem_cons_of_mem i hj)]
    have hi := h i List.mem_cons_self
    unfold raise flipBit
    split_ifs
    · refine List.ext_getElem? fun k ↦ ?_
      rw [List.getElem?_take, List.getElem?_take]
      split_ifs with hk
      · have hne : i / 8 ≠ k := by omega
        simp [hne]
      · rfl
    · rfl

/-- Sequences of bytes with the same bits are equal. -/
theorem bit_ext {bytes' : List UInt8} (h : ∀ i, bit bytes i = bit bytes' i) : bytes = bytes' := by
  refine List.ext_getElem? fun n ↦ ?_
  have hn : ∀ k < 8, (bytes[n]?).map (fun b ↦ b.toNat.testBit k) =
      (bytes'[n]?).map fun b ↦ b.toNat.testBit k := by
    intro k hk
    have hb := h (8 * n + (7 - k))
    unfold bit at hb
    rwa [show (8 * n + (7 - k)) / 8 = n by omega,
      show 7 - (8 * n + (7 - k)) % 8 = k by omega] at hb
  cases hb : bytes[n]? with
  | none =>
    have h₀ := hn 0 (by omega)
    rw [hb, Option.map_none, eq_comm, Option.map_eq_none_iff] at h₀
    exact h₀.symm
  | some b =>
    cases hb' : bytes'[n]? with
    | none =>
      have h₀ := hn 0 (by omega)
      rw [hb, hb'] at h₀
      cases h₀
    | some b' =>
      congr 1
      refine UInt8.toNat_inj.mp (Nat.eq_of_testBit_eq fun k ↦ ?_)
      by_cases hk : k < 8
      · have hk' := hn k hk
        rw [hb, hb'] at hk'
        exact Option.some.inj hk'
      · have hpow : 2 ^ 8 ≤ 2 ^ k := Nat.pow_le_pow_right (by omega) (by omega)
        rw [Nat.testBit_lt_two_pow (Nat.lt_of_lt_of_le b.toNat_lt hpow),
          Nat.testBit_lt_two_pow (Nat.lt_of_lt_of_le b'.toNat_lt hpow)]

section LeastFirst

variable {a : ℕ → UInt8} {j k : ℕ}

def mask (k : ℕ) : UInt8 := 1 <<< UInt8.ofNat (k % 8)

/-- The bit `k` of an array of bytes, the least significant bit of each byte first. -/
def lowBit (a : ℕ → UInt8) (k : ℕ) : Bool := a (k / 8) &&& mask k ≠ 0

def setLowBit (a : ℕ → UInt8) (k : ℕ) : ℕ → UInt8 :=
  Function.update a (k / 8) (a (k / 8) ||| mask k)

def clearLowBit (a : ℕ → UInt8) (k : ℕ) : ℕ → UInt8 :=
  Function.update a (k / 8) (a (k / 8) &&& ~~~mask k)

theorem toNat_mask (k : ℕ) : (mask k).toNat = 2 ^ (k % 8) := by
  have hmod : (UInt8.ofNat (k % 8)).toNat % 8 = k % 8 := by
    rw [UInt8.toNat_ofNat']
    omega
  have hpow : 2 ^ (k % 8) < 2 ^ 8 := Nat.pow_lt_pow_right (by omega) (Nat.mod_lt _ (by omega))
  rw [mask, UInt8.toNat_shiftLeft, hmod]
  change (1 <<< (k % 8)) % 2 ^ 8 = _
  rw [Nat.one_shiftLeft, Nat.mod_eq_of_lt hpow]

theorem getLsbD_mask (k i : ℕ) : (mask k).toBitVec.getLsbD i = decide (k % 8 = i) := by
  rw [BitVec.getLsbD, UInt8.toNat_toBitVec, toNat_mask, Nat.testBit_two_pow]

theorem lowBit_eq (a : ℕ → UInt8) (k : ℕ) :
    lowBit a k = (a (k / 8)).toBitVec.getLsbD (k % 8) := by
  rw [lowBit, BitVec.getLsbD, UInt8.toNat_toBitVec, Bool.eq_iff_iff, decide_eq_true_eq, ne_eq,
    ← UInt8.toNat_inj, UInt8.toNat_and, toNat_mask, Nat.and_two_pow]
  cases (a (k / 8)).toNat.testBit (k % 8) <;> simp

theorem lowBit_set : lowBit (setLowBit a k) j = (decide (j = k) || lowBit a j) := by
  rw [lowBit_eq, lowBit_eq, setLowBit]
  by_cases h : j / 8 = k / 8
  · have hjk : k % 8 = j % 8 ↔ j = k := by omega
    rw [h, Function.update_self, UInt8.toBitVec_or, BitVec.getLsbD_or, getLsbD_mask,
      decide_eq_decide.mpr hjk, Bool.or_comm]
  · have hjk : j ≠ k := by
      intro he
      exact h (by rw [he])
    rw [Function.update_of_ne h, decide_eq_false hjk, Bool.false_or]

theorem lowBit_clear : lowBit (clearLowBit a k) j = (!decide (j = k) && lowBit a j) := by
  rw [lowBit_eq, lowBit_eq, clearLowBit]
  by_cases h : j / 8 = k / 8
  · have hjk : k % 8 = j % 8 ↔ j = k := by omega
    have hj : j % 8 < 8 := Nat.mod_lt _ (by omega)
    rw [h, Function.update_self, UInt8.toBitVec_and, UInt8.toBitVec_not, BitVec.getLsbD_and,
      BitVec.getLsbD_not, getLsbD_mask, decide_eq_decide.mpr hjk, decide_eq_true hj, Bool.true_and,
      Bool.and_comm]
  · have hjk : j ≠ k := by
      intro he
      exact h (by rw [he])
    rw [Function.update_of_ne h, decide_eq_false hjk, Bool.not_false, Bool.true_and]

end LeastFirst

end MqssdModel.Data.PackedBits
