import MqssdModel.BPlusTree.FileGrowth
import MqssdModel.BPlusTree.Reading

namespace MqssdModel.BPlusTree.Reopen

open Data.Rows Data.TotalRun Machine Caching Views Shape Allocation LeafLevel Boot Put History Reading
  FileGrowth

/-- The arguments with which `bplus_tree_init` returns a tree. -/
structure Acceptable (filename : String) (blockSize : ℤ) : Prop where
  name : filename.utf8ByteSize < 1024
  power : Int.land blockSize (blockSize - 1) = 0
  node : nodeSize ≤ blockSize
  order : 2 < (geometry blockSize).maxOrder

/-- The static variables are those of a block size, and the offsets of the tree are
non-negative values of `off_t`. -/
structure Bootable (cf : Config) (t : Tree) : Prop where
  statics : cf = geometry cf.blockSize
  block : 0 ≤ cf.blockSize ∧ cf.blockSize < 2 ^ 31
  root : 0 ≤ t.root ∧ t.root < 2 ^ 63
  size : 0 ≤ t.fileSize ∧ t.fileSize < 2 ^ 63
  free : ∀ o ∈ t.freeBlocks, 0 ≤ o ∧ o < 2 ^ 63 ∧ 2 ∣ o

/-- The tree that is loaded from the files of `t`. -/
def reopened (heap : Slot → Node) (t : Tree) : Tree where
  caches := heap
  used := fun _ ↦ false
  turns := fun _ ↦ 0
  level := 0
  root := t.root
  fileSize := t.fileSize
  freeBlocks := (t.freeBlocks.map (wrap 32)).reverse
  file := t.file

variable {cf cf₀ : Config} {t t₁ : Tree} {st : Store} {fs : Files} {filename : String}
  {blockSize d : ℤ} {heap : Slot → Node} {m ops : List (ℤ × ℤ)} {fuel : ℕ}

section Load

theorem wrap_lt (x : ℤ) : wrap 32 x < 2 ^ 31 := by
  have hlt : wrap 32 x < (2 ^ 32 + 1 : ℕ) / 2 := Int.bmod_lt (by norm_num)
  norm_num at hlt ⊢
  omega

theorem strToHex_stored {x : ℤ} (h₀ : 0 ≤ x) (h : x < 2 ^ 63) : strToHex (offsetStore x) = x := by
  rw [strToHex_store]
  exact wrap_offset h₀ h

/-- An even offset is not taken for the end of the list. -/
theorem wrap_ne_invalid {x : ℤ} (h : 2 ∣ x) : wrap 32 x % 2 ^ 32 ≠ invalidOffset := by
  intro he
  have hmod : wrap 32 x % 2 ^ 32 = x % 2 ^ 32 := Int.bmod_emod
  rw [hmod] at he
  have hodd : invalidOffset % 2 = 1 := by decide
  omega

theorem loadFree_append (os free : List ℤ) (tail : BootFile)
    (h : ∀ o ∈ os, 0 ≤ o ∧ o < 2 ^ 63 ∧ 2 ∣ o) :
    loadFree (os.map offsetStore ++ tail) free =
      loadFree tail ((os.map (wrap 32)).reverse ++ free) := by
  induction os generalizing free with
  | nil => rfl
  | cons o os ih =>
    obtain ⟨h₀, hlt, heven⟩ := h o List.mem_cons_self
    rw [List.map_cons, List.cons_append, loadFree, strToHex_stored h₀ hlt]
    rw [if_neg (wrap_ne_invalid heven), ih _ fun o ho ↦ h o (List.mem_cons_of_mem _ ho)]
    simp

/-- What has been saved is loaded, and behind it what is left of a longer boot file. -/
theorem init_deinit_tail (ha : Acceptable filename blockSize) (h : Bootable cf t) :
    bplusTreeInit filename blockSize heap (bplusTreeDeinit cf t fs) cf₀ =
      (cf, some { reopened heap t with
        freeBlocks := loadFree ((fs.boot.getD []).drop (t.freeBlocks.length + 3))
          (reopened heap t).freeBlocks }) := by
  have hlen : (bootFields cf t).length = t.freeBlocks.length + 3 := by simp [bootFields]
  have hroot := strToHex_stored h.root.1 h.root.2
  have hsize := strToHex_stored h.size.1 h.size.2
  have hblock := strToHex_stored h.block.1 (h.block.2.trans (by norm_num))
  have hfree := loadFree_append t.freeBlocks [] ((fs.boot.getD []).drop (t.freeBlocks.length + 3))
    h.free
  rw [List.append_nil] at hfree
  have hcf : geometry (wrap 32 cf.blockSize) = cf := by
    rw [(wrap_int h.block.1).mpr h.block.2]
    exact h.statics.symm
  unfold bplusTreeInit
  rw [if_neg (Nat.not_le.mpr ha.name), if_neg (not_not.mpr ha.power), if_neg (not_lt.mpr ha.node),
    if_neg (not_le.mpr ha.order)]
  simp only [bplusTreeDeinit, hlen]
  simp only [bootFields, List.cons_append, offsetLoad, hroot, hsize, hblock, hfree, hcf]
  rfl

theorem init_deinit (ha : Acceptable filename blockSize) (h : Bootable cf t)
    (htail : (fs.boot.getD []).length ≤ t.freeBlocks.length + 3) :
    bplusTreeInit filename blockSize heap (bplusTreeDeinit cf t fs) cf₀ =
      (cf, some (reopened heap t)) := by
  rw [init_deinit_tail ha h, List.drop_eq_nil_of_le htail]
  rfl

/-- The loaded list holds the same offsets if no offset is cut off. -/
theorem reopened_free_perm (h : ∀ o ∈ t.freeBlocks, 0 ≤ o) :
    (reopened heap t).freeBlocks.Perm t.freeBlocks ↔ ∀ o ∈ t.freeBlocks, o < 2 ^ 31 := by
  constructor
  · intro hperm o ho
    obtain ⟨x, -, rfl⟩ := List.mem_map.mp (List.mem_reverse.mp (hperm.mem_iff.mpr ho))
    exact wrap_lt x
  · intro hlt
    have hid : t.freeBlocks.map (wrap 32) = t.freeBlocks :=
      (List.map_congr_left fun o ho ↦ (wrap_int (h o ho)).mpr (hlt o ho)).trans (List.map_id _)
    rw [reopened, hid]
    exact List.reverse_perm _

end Load

section Reached

theorem statics_of_fresh (h : Fresh cf t) :
    cf = geometry cf.blockSize ∧ 0 ≤ cf.blockSize ∧ cf.blockSize < 2 ^ 31 := by
  obtain ⟨filename, blockSize, heap, cf₀, hlt, h⟩ := h
  obtain ⟨-, hsize, -⟩ := accepted h
  have hnode : 0 ≤ nodeSize := by decide
  unfold bplusTreeInit at h
  split_ifs at h
  all_goals cases h
  exact ⟨rfl, hnode.trans hsize, hlt⟩

/-- A tree whose file has not outgrown `off_t`. -/
theorem bootable_of_stands (hcf : Sized cf) (hstatics : cf = geometry cf.blockSize)
    (hblock : cf.blockSize < 2 ^ 31) (h : Stands cf t m d) (hsize : t.fileSize < 2 ^ 63) :
    Bootable cf t := by
  obtain ⟨st, hrep, hholds⟩ := h
  have halloc : ∃ used, Alloc cf st used ∧ (st.root = invalidOffset ∨ st.root ∈ used) := by
    rcases hholds with ⟨-, hroot, -, halloc, -⟩ | ⟨w, us, hg, -⟩
    · exact ⟨[], halloc, Or.inl hroot⟩
    · exact ⟨_, hg.alloc, Or.inr (root_mem hg.upper)⟩
  obtain ⟨used, ha, hroot⟩ := halloc
  rw [hrep.fileSize] at hsize
  refine ⟨hstatics, ⟨hcf.pos.le, hblock⟩, ?_, hrep.fileSize ▸ ⟨ha.nonneg, hsize⟩, ?_⟩
  · rw [hrep.root]
    rcases hroot with hroot | hroot
    · rw [hroot]
      decide
    · obtain ⟨h₀, hlt, -⟩ := (ha.mem _).mp (List.mem_append_left _ hroot)
      exact ⟨h₀, hlt.trans hsize⟩
  · intro o ho
    rw [hrep.free] at ho
    obtain ⟨h₀, hlt, hdvd⟩ := (ha.mem o).mp (List.mem_append_right _ ho)
    exact ⟨h₀, hlt.trans hsize, hcf.even.trans hdvd⟩

theorem acceptable_small : Acceptable "index" 128 := by
  refine ⟨by decide, by decide, by decide, by decide⟩

end Reached

end MqssdModel.BPlusTree.Reopen
