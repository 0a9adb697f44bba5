import Mathlib.Algebra.Order.Ring.Nat
import Mathlib.Data.List.TakeWhile
import Mathlib.Tactic.Positivity
import Mathlib.Tactic.Ring

namespace MqssdModel.Data.Bytes

variable {a b w n : ℕ} {mem bs s l l' : List UInt8}

section Memory

/-- The `n` bytes from `a` on. -/
def slice (mem : List UInt8) (a n : ℕ) : List UInt8 := (mem.drop a).take n

/-- The bytes `bs` written at `a`. -/
def overwrite (mem : List UInt8) (a : ℕ) (bs : List UInt8) : List UInt8 :=
  mem.take a ++ (bs ++ mem.drop (a + bs.length))

theorem length_overwrite (h : a + bs.length ≤ mem.length) :
    (overwrite mem a bs).length = mem.length := by
  simp only [overwrite, List.length_append, List.length_take, List.length_drop]
  omega

theorem slice_overwrite (ha : a ≤ mem.length) :
    slice (overwrite mem a bs) a bs.length = bs := by
  have hlen : (mem.take a).length = a := List.length_take_of_le ha
  rw [slice, overwrite, List.drop_left' hlen, List.take_left]

theorem slice_overwrite_before (h : b + n ≤ a) (ha : a ≤ mem.length) :
    slice (overwrite mem a bs) b n = slice mem b n := by
  have hlen : (mem.take a).length = a := List.length_take_of_le ha
  rw [slice, slice, overwrite, List.drop_append_of_le_length (by omega),
    List.take_append_of_le_length (by rw [List.length_drop]; omega), List.drop_take,
    List.take_take, min_eq_left (by omega)]

theorem slice_overwrite_behind (h : a + bs.length ≤ b) (ha : a ≤ mem.length) :
    slice (overwrite mem a bs) b n = slice mem b n := by
  obtain ⟨k, rfl⟩ := Nat.exists_eq_add_of_le h
  have hlen : (mem.take a).length = a := List.length_take_of_le ha
  rw [slice, slice, overwrite, Nat.add_assoc, ← List.drop_drop, List.drop_left' hlen,
    ← List.drop_drop, List.drop_left, List.drop_drop, Nat.add_assoc]

/-- A write is not seen in bytes it does not meet. -/
theorem slice_overwrite_apart (h : b + n ≤ a ∨ a + bs.length ≤ b) (ha : a ≤ mem.length) :
    slice (overwrite mem a bs) b n = slice mem b n := by
  rcases h with h | h
  · exact slice_overwrite_before h ha
  · exact slice_overwrite_behind h ha

theorem length_slice (h : a + n ≤ mem.length) : (slice mem a n).length = n := by
  rw [slice, List.length_take, List.length_drop]
  omega

theorem slice_slice (h : b + n ≤ w) : slice (slice mem a w) b n = slice mem (a + b) n := by
  rw [slice, slice, slice, List.drop_take, List.take_take, List.drop_drop, min_eq_left (by omega)]

theorem slice_overwrite_inside (hb : b + n ≤ bs.length) (ha : a ≤ mem.length) :
    slice (overwrite mem a bs) (a + b) n = slice bs b n := by
  have hlen : (mem.take a).length = a := List.length_take_of_le ha
  rw [slice, slice, overwrite, ← List.drop_drop, List.drop_left' hlen,
    List.drop_append_of_le_length (by omega), List.take_append_of_le_length]
  rw [List.length_drop]
  omega

/-- A write to a part of some bytes, seen in these bytes. -/
theorem slice_overwrite_within (hw : b + bs.length ≤ w) (ha : a + w ≤ mem.length) :
    slice (overwrite mem (a + b) bs) a w = overwrite (slice mem a w) b bs := by
  have hlen : (mem.take (a + b)).length = a + b := List.length_take_of_le (by omega)
  have hfirst : (slice mem a b).length = b := length_slice (by omega)
  have hcut : (mem.take (a + b)).drop a = slice mem a b := by
    rw [List.drop_take, Nat.add_sub_cancel_left, slice]
  have hfront : (slice mem a w).take b = slice mem a b := by
    rw [slice, List.take_take, min_eq_left (by omega), slice]
  obtain ⟨k, rfl⟩ := Nat.exists_eq_add_of_le hw
  have hback : (slice mem a (b + bs.length + k)).drop (b + bs.length) =
      (mem.drop (a + b + bs.length)).take k := by
    rw [slice, List.drop_take, List.drop_drop, Nat.add_sub_cancel_left, Nat.add_assoc]
  rw [overwrite, overwrite, hfront, hback, slice, List.drop_append_of_le_length (by omega), hcut,
    List.take_append, hfirst, List.take_of_length_le (by omega), List.take_append,
    List.take_of_length_le (by omega)]
  congr 3
  omega

theorem slice_append (h : a + n ≤ mem.length) : slice (mem ++ l) a n = slice mem a n := by
  rw [slice, List.drop_append_of_le_length (by omega), List.take_append_of_le_length, slice]
  rw [List.length_drop]
  omega

/-- A write to a file, which grows when the write ends behind its end. A hole is filled
with zeros. -/
def writeAt (file : List UInt8) (a : ℕ) (bs : List UInt8) : List UInt8 :=
  overwrite (file ++ List.replicate (a - file.length) 0) a bs

theorem length_padded (file : List UInt8) (a : ℕ) :
    a ≤ (file ++ List.replicate (a - file.length) (0 : UInt8)).length := by
  rw [List.length_append, List.length_replicate]
  omega

theorem slice_writeAt : slice (writeAt mem a bs) a bs.length = bs :=
  slice_overwrite (length_padded mem a)

theorem slice_writeAt_apart (h : b + n ≤ a ∨ a + bs.length ≤ b) (hb : b + n ≤ mem.length) :
    slice (writeAt mem a bs) b n = slice mem b n := by
  rw [writeAt, slice_overwrite_apart h (length_padded mem a), slice_append hb]

theorem length_writeAt : mem.length ≤ (writeAt mem a bs).length ∧
    a + bs.length ≤ (writeAt mem a bs).length := by
  simp only [writeAt, overwrite, List.length_append, List.length_take, List.length_drop,
    List.length_replicate]
  omega

end Memory

section Words

/-- The `w` bytes of a number, the least significant one first. -/
def toBytes : ℕ → ℕ → List UInt8
  | 0, _ => []
  | w + 1, x => UInt8.ofNat (x % 256) :: toBytes w (x / 256)

def ofBytes : List UInt8 → ℕ
  | [] => 0
  | b :: bs => b.toNat + 256 * ofBytes bs

@[simp] theorem length_toBytes (w x : ℕ) : (toBytes w x).length = w := by
  induction w generalizing x with
  | zero => rfl
  | succ w ih => rw [toBytes, List.length_cons, ih]

theorem ofBytes_toBytes (w x : ℕ) : ofBytes (toBytes w x) = x % 256 ^ w := by
  induction w generalizing x with
  | zero => rw [toBytes, ofBytes, pow_zero, Nat.mod_one]
  | succ w ih =>
    have hbyte : (UInt8.ofNat (x % 256)).toNat = x % 256 := by
      rw [UInt8.toNat_ofNat']
      omega
    rw [toBytes, ofBytes, ih, hbyte, pow_succ', Nat.mod_mul]

/-- A signed integer of `w` bytes. -/
def toInt (bs : List UInt8) : ℤ := Int.bmod (ofBytes bs) (256 ^ bs.length)

def ofInt (w : ℕ) (x : ℤ) : List UInt8 := toBytes w (x % 256 ^ w).toNat

@[simp] theorem length_ofInt (w : ℕ) (x : ℤ) : (ofInt w x).length = w := length_toBytes w _

theorem toInt_ofInt (w : ℕ) (x : ℤ) : toInt (ofInt w x) = Int.bmod x (256 ^ w) := by
  have hpos : (0 : ℤ) < 256 ^ w := by positivity
  have hnonneg := Int.emod_nonneg x hpos.ne'
  rw [toInt, length_ofInt, ofInt, ofBytes_toBytes, Int.natCast_emod, Int.toNat_of_nonneg hnonneg]
  push_cast
  rw [Int.emod_emod_of_dvd _ (dvd_refl _)]
  exact_mod_cast Int.emod_bmod x (256 ^ w)

end Words

section Strings

/-- The string that starts here and ends before the first NUL. -/
def cString (mem : List UInt8) : List UInt8 := mem.takeWhile (· ≠ 0)

theorem cString_append (h : 0 ∉ l) : cString (l ++ l') = l ++ cString l' := by
  refine List.takeWhile_append_of_pos fun b hb ↦ ?_
  rw [decide_eq_true_eq]
  rintro rfl
  exact h hb

theorem cString_terminated (h : 0 ∉ l) : cString (l ++ 0 :: l') = l := by
  rw [cString_append h]
  simp [cString]

def strcpy (mem : List UInt8) (s : List UInt8) : List UInt8 := overwrite mem 0 (s ++ [0])

def strcat (mem : List UInt8) (s : List UInt8) : List UInt8 :=
  overwrite mem (cString mem).length (s ++ [0])

theorem strcpy_eq (mem s : List UInt8) : strcpy mem s = s ++ 0 :: mem.drop (s.length + 1) := by
  simp [strcpy, overwrite]

/-- The string is extended if there is room, and whether or not there is room for it in the array
that it is in. -/
theorem strcat_eq (h : 0 ∉ l) : strcat (l ++ 0 :: l') s = l ++ s ++ 0 :: l'.drop s.length := by
  rw [strcat, cString_terminated h, overwrite, List.take_left, ← List.drop_drop, List.drop_left]
  simp

end Strings

end MqssdModel.Data.Bytes
