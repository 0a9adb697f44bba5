import Mathlib.Tactic.IntervalCases
import Mathlib.Tactic.Linarith
import Mathlib.Tactic.Positivity
import Mathlib.Tactic.Ring
import MqssdModel.BPlusTree.Allocation

namespace MqssdModel.BPlusTree.Boot

open Machine Allocation

/-- A value as a signed integer of `w` bits keeps it. -/
def wrap (w : ℕ) (x : ℤ) : ℤ := Int.bmod x (2 ^ w)

/-- `ADDR_STR_WIDTH` -/
def addrStrWidth : ℕ := 16

def isdigit (c : Char) : Bool := '0' ≤ c && c ≤ '9'

def islower (c : Char) : Bool := 'a' ≤ c && c ≤ 'z'

def isxdigit (c : Char) : Bool := isdigit c || 'a' ≤ c && c ≤ 'f' || 'A' ≤ c && c ≤ 'F'

def hexStep (offset : ℤ) (c : Char) : ℤ :=
  if isdigit c then offset * 16 + c.toNat - '0'.toNat
  else if isxdigit c then
    if islower c then offset * 16 + c.toNat - 'a'.toNat + 10
    else offset * 16 + c.toNat - 'A'.toNat + 10
  else offset

def strToHex (s : List Char) : ℤ := wrap 64 (s.foldl hexStep 0)

def hexDigits : List Char :=
  ['0', '1', '2', '3', '4', '5', '6', '7', '8', '9', 'A', 'B', 'C', 'D', 'E', 'F']

def hexToStr (offset : ℤ) : ℕ → List Char
  | 0 => []
  | len + 1 => hexToStr (offset / 16) len ++ [hexDigits.getD (offset % 16).toNat '0']

/-- The boot file is only ever written in fields of `ADDR_STR_WIDTH` characters. -/
abbrev BootFile := List (List Char)

/-- The value of the next field, and the fields behind it. -/
def offsetLoad : BootFile → ℤ × BootFile
  | [] => (invalidOffset, [])
  | s :: fs => (strToHex s, fs)

def offsetStore (offset : ℤ) : List Char := hexToStr offset addrStrWidth

/-- The loop that loads the free blocks. The offsets go through an `int`, which is compared
with `INVALID_OFFSET` as unsigned. -/
def loadFree : BootFile → List ℤ → List ℤ
  | [], free => free
  | s :: fs, free =>
    let i := wrap 32 (strToHex s)
    if i % 2 ^ 32 = invalidOffset then free else loadFree fs (i :: free)

/-- `sizeof(struct bplus_node)` -/
def nodeSize : ℤ := 40

/-- The static variables for a block size: the subtraction of a `sizeof` is one of unsigned
64-bit numbers, and a key with a value or with an offset takes 12 bytes. -/
def geometry (blockSize : ℤ) : Config where
  blockSize := blockSize
  maxOrder := wrap 32 ((blockSize - nodeSize) % 2 ^ 64 / 12)
  maxEntries := wrap 32 ((blockSize - nodeSize) % 2 ^ 64 / 12)

/-- The files of one index: the boot file, if there is one, and the blocks. -/
structure Files where
  boot : Option BootFile
  data : ℤ → Option Node

/-- There is no index file yet. -/
def noFiles : Files := ⟨none, fun _ ↦ none⟩

/-- `bplus_tree_init`, with the static variables before and after. The node caches hold what
`malloc` finds. -/
def bplusTreeInit (filename : String) (blockSize : ℤ) (heap : Slot → Node) (fs : Files)
    (cf : Config) : Config × Option Tree :=
  if filename.utf8ByteSize ≥ 1024 then (cf, none)
  else if Int.land blockSize (blockSize - 1) ≠ 0 then (cf, none)
  else if blockSize < nodeSize then (cf, none)
  else if (geometry blockSize).maxOrder ≤ 2 then (geometry blockSize, none)
  else
    match fs.boot with
    | some boot =>
      let (root, boot) := offsetLoad boot
      let (loaded, boot) := offsetLoad boot
      let (fileSize, boot) := offsetLoad boot
      (geometry (wrap 32 loaded), some
        { caches := heap
          used := fun _ ↦ false
          turns := fun _ ↦ 0
          level := 0
          root := root
          fileSize := fileSize
          freeBlocks := loadFree boot []
          file := fs.data })
    | none =>
      (geometry blockSize, some
        { caches := heap
          used := fun _ ↦ false
          turns := fun _ ↦ 0
          level := 0
          root := invalidOffset
          fileSize := 0
          freeBlocks := []
          file := fs.data })

/-- The fields that `bplus_tree_deinit` writes. -/
def bootFields (cf : Config) (t : Tree) : BootFile :=
  offsetStore t.root :: offsetStore cf.blockSize :: offsetStore t.fileSize ::
    t.freeBlocks.map offsetStore

/-- The files after `bplus_tree_deinit`. The boot file is not truncated: fields behind the ones
written stay. -/
def bplusTreeDeinit (cf : Config) (t : Tree) (fs : Files) : Files where
  boot := some (bootFields cf t ++ (fs.boot.getD []).drop (bootFields cf t).length)
  data := t.file

section Codec

variable {x : ℤ}

theorem wrap_offset (h₀ : 0 ≤ x) (h : x < 2 ^ 63) : wrap 64 x = x :=
  Int.bmod_eq_of_le (by norm_num; omega) (by norm_num; omega)

theorem wrap_int (h₀ : 0 ≤ x) : wrap 32 x = x ↔ x < 2 ^ 31 := by
  constructor
  · intro h
    have hlt : wrap 32 x < (2 ^ 32 + 1 : ℕ) / 2 := Int.bmod_lt (by norm_num)
    rw [h] at hlt
    norm_num at hlt ⊢
    omega
  · intro h
    exact Int.bmod_eq_of_le (by norm_num; omega) (by norm_num; omega)

/-- The value of a digit as `str_to_hex` reads it. -/
def hexValue (c : Char) : ℤ :=
  if isdigit c then c.toNat - '0'.toNat
  else if islower c then c.toNat - 'a'.toNat + 10 else c.toNat - 'A'.toNat + 10

theorem hexStep_eq (offset : ℤ) {c : Char} (h : isxdigit c = true) :
    hexStep offset c = offset * 16 + hexValue c := by
  unfold hexStep hexValue
  split_ifs <;> ring

theorem hexStep_digit (offset : ℤ) {i : ℕ} (hi : i < 16) :
    hexStep offset (hexDigits.getD i '0') = offset * 16 + i := by
  have hdigit : ∀ i : Fin 16, isxdigit (hexDigits.getD i '0') = true ∧
      hexValue (hexDigits.getD i '0') = (i : ℕ) := by decide
  obtain ⟨hx, hv⟩ := hdigit ⟨i, hi⟩
  rw [hexStep_eq offset hx, hv]

theorem emod_pow_succ (x : ℤ) (n : ℕ) : x % 16 ^ (n + 1) = x / 16 % 16 ^ n * 16 + x % 16 := by
  have hpos : (0 : ℤ) < 16 ^ n := by positivity
  have hdiv := Int.emod_add_mul_ediv (x / 16) (16 ^ n)
  have hdiv' := Int.emod_add_mul_ediv x 16
  have hnonneg := Int.emod_nonneg (x / 16) hpos.ne'
  have hlt := Int.emod_lt_of_pos (x / 16) hpos
  have hunique := (Int.ediv_emod_unique (a := x) (b := 16 ^ (n + 1)) (q := x / 16 / 16 ^ n)
    (r := x / 16 % 16 ^ n * 16 + x % 16) (by positivity)).mpr
  refine (hunique ⟨?_, by omega, ?_⟩).2
  · rw [pow_succ]
    linarith
  · rw [pow_succ]
    omega

/-- What has been written is read back. -/
theorem foldl_hexToStr (offset x : ℤ) (len : ℕ) :
    (hexToStr x len).foldl hexStep offset = offset * 16 ^ len + x % 16 ^ len := by
  induction len generalizing x with
  | zero => simp [hexToStr]
  | succ len ih =>
    have hmod := Int.emod_nonneg x (show (16 : ℤ) ≠ 0 by norm_num)
    have hlt := Int.emod_lt_of_pos x (show (0 : ℤ) < 16 by norm_num)
    rw [hexToStr, List.foldl_append, ih, List.foldl_cons, List.foldl_nil,
      hexStep_digit _ (by omega), emod_pow_succ, Int.toNat_of_nonneg hmod]
    ring

theorem strToHex_store (x : ℤ) : strToHex (offsetStore x) = wrap 64 x := by
  rw [strToHex, offsetStore, foldl_hexToStr, zero_mul, zero_add, wrap, wrap]
  exact Int.emod_bmod x (2 ^ 64)

end Codec

section Geometry

variable {filename : String} {blockSize : ℤ} {heap : Slot → Node} {fs : Files} {cf cf' : Config}
  {t : Tree}

theorem land_odd (m : ℕ) : (2 * m + 1) &&& (2 * m) = 2 * m := by
  apply Nat.eq_of_testBit_eq
  intro i
  rw [Nat.testBit_and]
  cases i with
  | zero => simp
  | succ i =>
    rw [Nat.testBit_succ, Nat.testBit_succ, show (2 * m + 1) / 2 = m by omega,
      show 2 * m / 2 = m by omega, Bool.and_self]

theorem even_of_land (hpos : 1 < blockSize) (h : Int.land blockSize (blockSize - 1) = 0) :
    2 ∣ blockSize := by
  by_contra hodd
  obtain ⟨m, rfl⟩ : ∃ m : ℕ, blockSize = ((2 * m + 1 : ℕ) : ℤ) :=
    ⟨(blockSize / 2).toNat, by omega⟩
  rw [show ((2 * m + 1 : ℕ) : ℤ) - 1 = ((2 * m : ℕ) : ℤ) by omega] at h
  have hland : ((((2 * m + 1) &&& (2 * m) : ℕ)) : ℤ) = 0 := h
  rw [land_odd] at hland
  omega

theorem order_geometry (h₀ : nodeSize ≤ blockSize) (h : blockSize < 2 ^ 31) :
    (geometry blockSize).maxOrder = (blockSize - 40) / 12 ∧
      (geometry blockSize).maxEntries = (blockSize - 40) / 12 := by
  have hn : nodeSize = 40 := rfl
  have hmod : (blockSize - nodeSize) % 2 ^ 64 = blockSize - 40 := by omega
  have hw : wrap 32 ((blockSize - nodeSize) % 2 ^ 64 / 12) = (blockSize - 40) / 12 := by
    rw [hmod]
    exact (wrap_int (by omega)).mpr (by omega)
  exact ⟨hw, hw⟩

/-- A block size that is accepted is a power of two from 128 on. -/
theorem sized_geometry (h : blockSize < 2 ^ 31) (hland : Int.land blockSize (blockSize - 1) = 0)
    (h₀ : nodeSize ≤ blockSize) (horder : 2 < (geometry blockSize).maxOrder) :
    Sized (geometry blockSize) := by
  have hn : nodeSize = 40 := rfl
  obtain ⟨ho, he⟩ := order_geometry h₀ h
  have hbig : 88 ≤ blockSize := by
    by_contra hlt
    have hge : 76 ≤ blockSize := by omega
    have hle : blockSize ≤ 87 := by omega
    interval_cases blockSize <;> exact absurd hland (by decide)
  have heven : 2 ∣ blockSize := even_of_land (by omega) hland
  exact ⟨by omega, by omega, by change 0 < blockSize; omega, heven⟩

/-- What `bplus_tree_init` has checked when it returns a tree. -/
theorem accepted (h : bplusTreeInit filename blockSize heap fs cf = (cf', some t)) :
    Int.land blockSize (blockSize - 1) = 0 ∧ nodeSize ≤ blockSize ∧
      2 < (geometry blockSize).maxOrder := by
  unfold bplusTreeInit at h
  split_ifs at h with h₁ h₂ h₃ h₄
  · exact absurd (congrArg Prod.snd h) (by simp)
  · exact absurd (congrArg Prod.snd h) (by simp)
  · exact absurd (congrArg Prod.snd h) (by simp)
  · exact absurd (congrArg Prod.snd h) (by simp)
  · exact ⟨not_not.mp h₂, by omega, by omega⟩

end Geometry

end MqssdModel.BPlusTree.Boot
