import MqssdModel.BPlusTree.GetRun
import MqssdModel.BPlusTree.Sessions
import MqssdModel.Data.Bytes

namespace MqssdModel.BPlusTree.BootName

open Data.Assoc Data.Bytes Data.TotalRun Machine Descent Boot Put History Reading Lookup
  GetRun Reopen Sessions

variable {name : List UInt8} {fd level : ℤ}

section Name

/-- The text `.boot` -/
def bootSuffix : List UInt8 := [46, 98, 111, 111, 116]

/-- `struct bplus_tree` from `filename` to the padding behind `level`, when `bplus_tree_init` opens
the boot file: the 1024 bytes of the array are followed by `fd`, `level` and four bytes that
`calloc` has cleared. -/
def loadName (name : List UInt8) : List UInt8 :=
  strcat (strcpy (List.replicate 1036 0) name) bootSuffix

/-- The same bytes when `bplus_tree_deinit` opens the boot file. -/
def saveName (name : List UInt8) (fd level : ℤ) : List UInt8 :=
  overwrite (overwrite (loadName name) 1024 (ofInt 4 fd)) 1028 (ofInt 4 level)

theorem zero_not_mem_boot (h : 0 ∉ name) : 0 ∉ name ++ bootSuffix := by
  rw [List.mem_append, not_or]
  exact ⟨h, by decide⟩

theorem loadName_eq (h : 0 ∉ name) (hlen : name.length < 1024) :
    loadName name = name ++ bootSuffix ++ List.replicate (1031 - name.length) 0 := by
  have hcount : 1031 - name.length = 1030 - name.length + 1 := by omega
  rw [loadName, strcpy_eq, strcat_eq h, List.drop_drop, List.drop_replicate, hcount,
    List.replicate_succ]
  congr 3
  change 1036 - (name.length + 1 + 5) = _
  omega

theorem cString_loadName (h : 0 ∉ name) (hlen : name.length < 1024) :
    cString (loadName name) = name ++ bootSuffix := by
  have hcount : 1031 - name.length = 1030 - name.length + 1 := by omega
  rw [loadName_eq h hlen, hcount, List.replicate_succ, cString_terminated (zero_not_mem_boot h)]

theorem saveName_eq (h : 0 ∉ name) (hlen : name.length < 1024) :
    saveName name fd level = (loadName name).take 1024 ++ (ofInt 4 fd ++ (ofInt 4 level ++
      [0, 0, 0, 0])) := by
  have htail : (loadName name).drop 1032 = [0, 0, 0, 0] := by
    have hfull : (name ++ bootSuffix).length = name.length + 5 := by simp [bootSuffix]
    rw [loadName_eq h hlen, List.drop_append, List.drop_eq_nil_of_le (by omega),
      List.drop_replicate, hfull, show 1031 - name.length - (1032 - (name.length + 5)) = 4 by omega]
    rfl
  have hfront : ((loadName name).take 1024 ++ ofInt 4 fd).length = 1028 := by
    rw [List.length_append, length_ofInt, List.length_take, loadName_eq h hlen]
    simp only [List.length_append, List.length_replicate]
    have hsuffix : bootSuffix.length = 5 := rfl
    omega
  have hinner : overwrite (loadName name) 1024 (ofInt 4 fd) =
      (loadName name).take 1024 ++ ofInt 4 fd ++ (loadName name).drop 1028 := by
    rw [overwrite, length_ofInt, List.append_assoc]
  rw [saveName, hinner, overwrite, length_ofInt, List.take_left' hfront, ← List.drop_drop,
    List.drop_left' hfront, List.drop_drop, htail, List.append_assoc]

/-- A name that is so long that `.boot` does not fit in runs on into the descriptor. -/
theorem cString_saveName (h : 0 ∉ name) (hlen : name.length < 1024) :
    cString (saveName name fd level) = if name.length ≤ 1018 then name ++ bootSuffix
      else (name ++ bootSuffix).take 1024 ++ cString (ofInt 4 fd ++ (ofInt 4 level ++
        [0, 0, 0, 0])) := by
  have hfull : (name ++ bootSuffix).length = name.length + 5 := by simp [bootSuffix]
  rw [saveName_eq h hlen, loadName_eq h hlen]
  split_ifs with hshort
  · obtain ⟨k, hk⟩ : ∃ k, 1024 - (name ++ bootSuffix).length = k + 1 :=
      ⟨1018 - name.length, by omega⟩
    rw [List.take_append, List.take_of_length_le (by omega), hk, List.take_replicate,
      min_eq_left (by omega), List.append_assoc, List.replicate_succ, List.cons_append,
      cString_terminated (zero_not_mem_boot h)]
  · rw [List.take_append_of_le_length (by omega), cString_append]
    exact fun hmem ↦ zero_not_mem_boot h (List.mem_of_mem_take hmem)

/-- A descriptor that takes one byte. -/
theorem cString_small (h₀ : 0 < fd) (h : fd < 256) (rest : List UInt8) :
    cString (ofInt 4 fd ++ rest) = [UInt8.ofNat fd.toNat] := by
  obtain ⟨n, rfl⟩ := Int.eq_ofNat_of_zero_le h₀.le
  have hmod : ((n : ℤ) % 256 ^ 4).toNat = n := by omega
  have hbyte : UInt8.ofNat n ≠ 0 := by
    intro hzero
    have hnat := congrArg UInt8.toNat hzero
    rw [UInt8.toNat_ofNat'] at hnat
    simp at hnat
    omega
  have hbytes : ofInt 4 n ++ rest = [UInt8.ofNat n] ++ 0 :: ([0, 0] ++ rest) := by
    rw [ofInt, hmod]
    simp [toBytes, show n % 256 = n by omega, show n / 256 = 0 by omega]
  rw [hbytes, cString_terminated (by simpa using hbyte.symm)]
  rfl

/-- With such a descriptor, the boot file that is written is the one that has been read if and only
if the name of the index leaves room for `.boot`. -/
theorem boot_name_iff (h : 0 ∉ name) (hlen : name.length < 1024) (h₀ : 0 < fd) (hfd : fd < 116) :
    cString (saveName name fd level) = cString (loadName name) ↔ name.length ≤ 1018 := by
  rw [cString_saveName h hlen, cString_loadName h hlen]
  split_ifs with hshort
  · simp [hshort]
  · refine iff_of_false (fun heq ↦ ?_) hshort
    rw [cString_small h₀ (by omega)] at heq
    have hdrop : [UInt8.ofNat fd.toNat] = (name ++ bootSuffix).drop 1024 := by
      conv_rhs at heq => rw [← List.take_append_drop 1024 (name ++ bootSuffix)]
      exact List.append_cancel_left heq
    have hsuffix : bootSuffix.length = 5 := rfl
    have hone : name.length = 1020 := by
      have hcount := congrArg List.length hdrop
      rw [List.length_drop, List.length_append, List.length_singleton] at hcount
      omega
    -- the last letter of the suffix is where the descriptor is
    rw [List.drop_append, List.drop_eq_nil_of_le (by omega), hone] at hdrop
    have hbyte : UInt8.ofNat fd.toNat = 116 := by simpa [bootSuffix] using hdrop
    have hnat := congrArg UInt8.toNat hbyte
    rw [UInt8.toNat_ofNat'] at hnat
    simp at hnat
    omega

end Name

section Directory

/-- The boot files by their names. -/
abbrev Directory := List UInt8 → Option BootFile

def bytes (filename : String) : List UInt8 := filename.toByteArray.data.toList

variable {filename : String} {dir : Directory} {data : ℤ → Option Node} {cf cf₀ : Config}
  {t t' : Tree} {blockSize : ℤ} {heap : Slot → Node} {ops : List (ℤ × ℤ)} {xs : List ℤ} {fuel : ℕ}

/-- The files that `bplus_tree_init` finds. -/
def found (dir : Directory) (data : ℤ → Option Node) (filename : String) : Files :=
  ⟨dir (cString (loadName (bytes filename))), data⟩

/-- The boot files after `bplus_tree_deinit` of a tree with the descriptor `fd`. -/
def saved (filename : String) (fd : ℤ) (cf : Config) (t : Tree) (dir : Directory) : Directory :=
  let name := cString (saveName (bytes filename) fd t.level)
  Function.update dir name (bplusTreeDeinit cf t ⟨dir name, t.file⟩).boot

theorem found_saved (h : 0 ∉ bytes filename) (hlen : (bytes filename).length ≤ 1018) :
    found (saved filename fd cf t dir) t.file filename =
      bplusTreeDeinit cf t (found dir t.file filename) := by
  have hname : cString (saveName (bytes filename) fd t.level) =
      cString (loadName (bytes filename)) := by
    rw [cString_saveName h (by omega), if_pos hlen, cString_loadName h (by omega)]
  rw [found, saved, hname, Function.update_self]
  rfl

theorem found_of_long (h : 0 ∉ bytes filename) (hlen : (bytes filename).length < 1024)
    (hlong : 1018 < (bytes filename).length) (h₀ : 0 < fd) (hfd : fd < 116) :
    found (saved filename fd cf t dir) t.file filename = found dir t.file filename := by
  have hname : cString (loadName (bytes filename)) ≠
      cString (saveName (bytes filename) fd t.level) :=
    fun heq ↦ absurd ((boot_name_iff h hlen h₀ hfd).mp heq.symm) (by omega)
  rw [found, saved, Function.update_of_ne hname]
  rfl

/-- Without a boot file, there is no tree in the blocks that are found. -/
theorem init_without_boot {fs : Files} (ha : Acceptable filename blockSize)
    (hboot : fs.boot = none) :
    bplusTreeInit filename blockSize heap fs cf₀ = (geometry blockSize, some
      ⟨heap, fun _ ↦ false, fun _ ↦ 0, 0, invalidOffset, 0, [], fs.data⟩) := by
  unfold bplusTreeInit
  rw [if_neg (Nat.not_le.mpr ha.name), if_neg (not_not.mpr ha.power),
    if_neg (not_lt.mpr ha.node), if_neg (not_le.mpr ha.order)]
  dsimp only
  rw [hboot]

theorem get_without_root {k : ℤ} (hroot : t.root = invalidOffset) :
    ∃ x t₂, bplusTreeGet cf fuel k t = .ok (x, t₂) ∧ x = -1 :=
  runs_get_bind (atEnd_run hroot (runs_pure rfl))

def noBoot : Directory := fun _ ↦ none

/-- A name of `n` letters. -/
def letters (n : ℕ) : String := String.ofList (List.replicate n 'a')

theorem bytes_letters (n : ℕ) : bytes (letters n) = List.replicate n 97 := by
  have hbyte : String.utf8EncodeChar 'a' = [97] := by decide
  rw [bytes, letters, String.toByteArray_ofList, List.utf8Encode, List.flatMap_replicate, hbyte,
    List.flatten_replicate_singleton]
  simp

theorem length_letters (n : ℕ) : (bytes (letters n)).length = n := by
  rw [bytes_letters, List.length_replicate]

theorem acceptable_letters {n : ℕ} (h : n < 1024) : Acceptable (letters n) 128 :=
  ⟨(length_letters n).trans_lt h, by decide, by decide, by decide⟩

theorem zero_not_mem_letters (n : ℕ) : 0 ∉ bytes (letters n) := by
  rw [bytes_letters]
  exact fun hmem ↦ absurd (List.eq_of_mem_replicate hmem) (by decide)

end Directory

end MqssdModel.BPlusTree.BootName
