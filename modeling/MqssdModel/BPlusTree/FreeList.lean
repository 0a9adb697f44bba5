import Mathlib.Order.Lattice.Nat
import MqssdModel.BPlusTree.Boot
import MqssdModel.BPlusTree.Checking
import MqssdModel.Data.LinkedRing

namespace MqssdModel.BPlusTree.FreeList

open Data.TotalRun Data.LinkedRing Boot

variable {α : Type} [DecidableEq α]

section Program

/-- The free list in `new_node_append`: the offset of the first block, which leaves the list. -/
def takeBlock (head : α) : H α ℤ (Option ℤ) := do
  if ← listEmpty head then return none
  else
    let block ← getNext head
    listDel block
    let offset ← getValue block
    free block
    return some offset

/-- The free list in `node_delete`. -/
def giveBlock (alloc : Allocator α ℤ) (head : α) (offset : ℤ) : H α ℤ Unit := do
  let block ← malloc alloc
  setValue block offset
  listAddTail block head

/-- The loop of `bplus_tree_init`. -/
def loadBlocks (alloc : Allocator α ℤ) (head : α) : BootFile → H α ℤ Unit
  | [] => return
  | s :: fs => do
    let i := wrap 32 (strToHex s)
    if i % 2 ^ 32 = Machine.invalidOffset then return
    else
      let block ← malloc alloc
      setValue block i
      listAdd block head
      loadBlocks alloc head fs

/-- The loop of `bplus_tree_deinit` over `list_for_each_safe`, with the fields it writes. -/
def storeLoop (head : α) : ℕ → α → α → H α ℤ BootFile
  | 0, _, _ => throw .fuel
  | fuel + 1, pos, n => do
    if pos = head then return []
    else
      listDel pos
      let offset ← getValue pos
      free pos
      let fs ← storeLoop head fuel n (← getNext n)
      return offsetStore offset :: fs

def storeBlocks (head : α) (fuel : ℕ) : H α ℤ BootFile := do
  let pos ← getNext head
  storeLoop head fuel pos (← getNext pos)

end Program

variable {h h' : Heap α ℤ} {head : α} {l : List ℤ} {o : ℤ} {fuel : ℕ}

section Specs

/-- The ring of `head` holds the offsets `l`, and nothing else is allocated. -/
def Owns (h : Heap α ℤ) (head : α) (l : List ℤ) : Prop :=
  ∃ as, Ring h head as [] ∧ as.map h.value = l

theorem takeBlock_run (ho : Owns h head l) :
    Runs (takeBlock head) h fun x h' ↦ x = l.head? ∧ Owns h' head l.tail := by
  obtain ⟨as, hr, rfl⟩ := ho
  refine (listEmpty_run hr).seq ?_
  rintro _ _ ⟨rfl, rfl⟩
  cases as with
  | nil => exact runs_pure ⟨rfl, [], hr, rfl⟩
  | cons a as =>
    refine (getNext_run hr.live_head).seq ?_
    rintro _ _ ⟨rfl, rfl⟩
    rw [hr.next_head]
    have hfirst : Ring _ head ([] ++ a :: as) [] := hr
    refine (listDel_run hfirst).seq fun _ h₁ ⟨hr₁, hv₁⟩ ↦ ?_
    refine (getValue_run ((hr₁.live a).mpr (by simp))).seq ?_
    rintro _ _ ⟨rfl, rfl⟩
    refine (free_run hr₁).seq fun _ h₂ ⟨hr₂, hv₂⟩ ↦ ?_
    refine runs_pure ⟨?_, as, hr₂, ?_⟩
    · rw [hv₁]
      rfl
    · rw [hv₂, hv₁]
      rfl

theorem map_update_value {as : List α} {a : α} (ha : a ∉ as) :
    as.map (Function.update h.value a o) = as.map h.value :=
  List.map_congr_left fun _ hb ↦ Function.update_of_ne (ne_of_mem_of_not_mem hb ha) _ _

section Loads

variable [Infinite α] (alloc : Allocator α ℤ)

/-- A new block with an offset in it, before it is linked. -/
theorem newBlock_bind (ho : Owns h head l) {β : Type} {g : α → H α ℤ β} {Q : β → Heap α ℤ → Prop}
    (hg : ∀ a h' as, Ring h' head as [a] → as.map h'.value = l → h'.value a = o → Runs (g a) h' Q) :
    Runs (do
      let block ← malloc alloc
      setValue block o
      g block) h Q := by
  obtain ⟨as, hr, rfl⟩ := ho
  refine (malloc_run alloc hr).seq fun a h₁ ⟨hr₁, hv₁⟩ ↦ ?_
  refine (setValue_run hr₁).seq fun _ h₂ ⟨hr₂, hv₂⟩ ↦ ?_
  have hnot : a ∉ as := fun ha ↦ (not_mem_of_nodup hr₁.nodup).1 (List.mem_cons_of_mem _ ha)
  refine hg a h₂ as hr₂ ?_ ?_
  · rw [hv₂, map_update_value hnot, hv₁]
  · rw [hv₂, Function.update_self]

theorem giveBlock_run (ho : Owns h head l) :
    Runs (giveBlock alloc head o) h fun _ h' ↦ Owns h' head (l ++ [o]) := by
  refine newBlock_bind alloc ho fun a h₁ as hr hl ho ↦ ?_
  refine (listAddTail_run hr).mono fun _ h₂ ⟨hr₂, hv⟩ ↦ ⟨_, hr₂, ?_⟩
  rw [hv, List.map_append, hl, List.map_singleton, ho]

theorem loadBlocks_run (fs : BootFile) (ho : Owns h head l) :
    Runs (loadBlocks alloc head fs) h fun _ h' ↦ Owns h' head (loadFree fs l) := by
  induction fs generalizing h l with
  | nil => exact runs_pure ho
  | cons s fs ih =>
    unfold loadBlocks loadFree
    dsimp only
    split_ifs with hend
    · exact runs_pure ho
    · refine newBlock_bind alloc ho fun a h₁ as hr hl ho ↦ ?_
      refine (listAdd_run hr).seq fun _ h₂ ⟨hr₂, hv⟩ ↦ ih ⟨_, hr₂, ?_⟩
      rw [hv, List.map_cons, hl, ho]

end Loads

/-- The loop has read the link of the block that it deletes. -/
theorem storeLoop_run {as : List α} (hr : Ring h head as []) (hfuel : as.length < fuel) :
    Runs (storeLoop head fuel (as.headD head) (h.next (as.headD head))) h fun fs h' ↦
      fs = (as.map h.value).map offsetStore ∧ Owns h' head [] := by
  induction as generalizing h fuel with
  | nil =>
    obtain ⟨fuel, rfl⟩ := Nat.exists_eq_succ_of_ne_zero (Nat.ne_zero_of_lt hfuel)
    rw [List.headD_nil, storeLoop, if_pos rfl]
    exact runs_pure ⟨rfl, [], hr, rfl⟩
  | cons a as ih =>
    obtain ⟨fuel, rfl⟩ := Nat.exists_eq_succ_of_ne_zero (Nat.ne_zero_of_lt hfuel)
    have hfirst : Ring h head ([] ++ a :: as) [] := hr
    rw [List.headD_cons, hr.next_first, storeLoop, if_neg hr.first_ne]
    refine (listDel_run hfirst).seq fun _ h₁ ⟨hr₁, hv₁⟩ ↦ ?_
    refine (getValue_run ((hr₁.live a).mpr (by simp))).seq ?_
    rintro _ _ ⟨rfl, rfl⟩
    refine (free_run hr₁).seq fun _ h₂ ⟨hr₂, hv₂⟩ ↦ ?_
    refine (getNext_run hr₂.live_first).seq ?_
    rintro _ _ ⟨rfl, rfl⟩
    refine (ih hr₂ (by simpa using hfuel)).seq fun fs h₃ ⟨hfs, ho⟩ ↦ runs_pure ⟨?_, ho⟩
    rw [hfs, hv₂, hv₁]
    rfl

theorem storeBlocks_run (ho : Owns h head l) (hfuel : l.length < fuel) :
    Runs (storeBlocks head fuel) h fun fs h' ↦
      fs = l.map offsetStore ∧ Owns h' head [] := by
  obtain ⟨as, hr, rfl⟩ := ho
  refine (getNext_run hr.live_head).seq ?_
  rintro _ _ ⟨rfl, rfl⟩
  rw [hr.next_head]
  refine (getNext_run hr.live_first).seq ?_
  rintro _ _ ⟨rfl, rfl⟩
  exact storeLoop_run hr (by simpa using hfuel)

end Specs

section Calls

/-- What the tree does with its free blocks between `bplus_tree_init` and `bplus_tree_deinit`. -/
inductive Call
  | append
  | delete (offset : ℤ)

def Call.onList : Call → List ℤ → Option ℤ × List ℤ
  | .append, l => (l.head?, l.tail)
  | .delete offset, l => (none, l ++ [offset])

def Call.onRing (alloc : Allocator α ℤ) (head : α) : Call → H α ℤ (Option ℤ)
  | .append => takeBlock head
  | .delete offset => do
    giveBlock alloc head offset
    return none

def callsOnList : List Call → List ℤ → List (Option ℤ) × List ℤ
  | [], l => ([], l)
  | c :: cs, l =>
    let (x, l) := c.onList l
    let (xs, l) := callsOnList cs l
    (x :: xs, l)

def callsOnRing (alloc : Allocator α ℤ) (head : α) : List Call → H α ℤ (List (Option ℤ))
  | [] => return []
  | c :: cs => do
    let x ← c.onRing alloc head
    let xs ← callsOnRing alloc head cs
    return x :: xs

end Calls

section Tree

open Machine Checking

variable {cf : Config} {c : Ptr} {t t' : Tree} {u : Unit}

/-- `new_node_append` takes the first free block, and lets the file grow if there is none. -/
theorem newNodeAppend_call {x : ℤ} (h : newNodeAppend cf c t = .ok (x, t')) :
    ∃ o, Call.append.onList t.freeBlocks = (o, t'.freeBlocks) ∧ x = o.getD t.fileSize := by
  unfold newNodeAppend at h
  obtain ⟨_, _, hget, h⟩ := bind_eq_ok.mp h
  cases hget
  cases hfree : t.freeBlocks with
  | nil =>
    rw [hfree] at h
    obtain ⟨_, _, hget, h⟩ := bind_eq_ok.mp h
    cases hget
    obtain ⟨_, t₁, hheld, h⟩ := bind_eq_ok.mp h
    obtain rfl := checkHeld_quiet hheld
    obtain ⟨_, t₂, hself, h⟩ := bind_eq_ok.mp h
    obtain rfl := modifyNode_eq hself
    obtain ⟨_, t₃, hsize, h⟩ := bind_eq_ok.mp h
    cases hsize
    obtain ⟨n, t₄, hnode, h⟩ := bind_eq_ok.mp h
    obtain ⟨rfl, rfl⟩ := node_eq hnode
    cases h
    exact ⟨none, by simp [Call.onList, hfree], by simp⟩
  | cons o l =>
    rw [hfree] at h
    obtain ⟨_, t₁, hrest, h⟩ := bind_eq_ok.mp h
    cases hrest
    obtain ⟨_, t₂, hheld, h⟩ := bind_eq_ok.mp h
    obtain rfl := checkHeld_quiet hheld
    obtain ⟨_, t₃, hself, h⟩ := bind_eq_ok.mp h
    obtain rfl := modifyNode_eq hself
    obtain ⟨n, t₄, hnode, h⟩ := bind_eq_ok.mp h
    obtain ⟨rfl, rfl⟩ := node_eq hnode
    cases h
    exact ⟨some o, rfl, by simp⟩

theorem cacheDefer_free (h : cacheDefer c t = .ok (u, t')) : t'.freeBlocks = t.freeBlocks := by
  obtain ⟨_, _, hget, h⟩ := bind_eq_ok.mp h
  cases hget
  split_ifs at h
  · cases h
    rfl
  · cases h

theorem nodeFlush_free {p : Option Ptr} (h : nodeFlush p t = .ok (u, t')) :
    t'.freeBlocks = t.freeBlocks := by
  cases p with
  | none =>
    cases h
    rfl
  | some c =>
    obtain ⟨n, t₁, hnode, h⟩ := bind_eq_ok.mp h
    obtain ⟨rfl, rfl⟩ := node_eq hnode
    obtain ⟨_, t₂, hwrite, h⟩ := bind_eq_ok.mp h
    obtain ⟨m, t₃, hnode, hwrite⟩ := bind_eq_ok.mp hwrite
    obtain ⟨rfl, rfl⟩ := node_eq hnode
    cases hwrite
    have hdefer := cacheDefer_free h
    exact hdefer

theorem release_free (h : nodeDelete c none none t = .ok (u, t')) :
    ∃ o, t'.freeBlocks = t.freeBlocks ++ [o] := by
  obtain ⟨n, t₁, hnode, h⟩ := bind_eq_ok.mp h
  obtain ⟨rfl, rfl⟩ := node_eq hnode
  obtain ⟨_, t₂, hassert, h⟩ := bind_eq_ok.mp h
  obtain rfl := assert_quiet hassert
  obtain ⟨_, t₃, hfree, h⟩ := bind_eq_ok.mp h
  cases hfree
  exact ⟨_, cacheDefer_free h⟩

/-- `node_delete` puts one block at the end. -/
theorem nodeDelete_call {left right : Option Ptr} (h : nodeDelete c left right t = .ok (u, t')) :
    ∃ o, (Call.delete o).onList t.freeBlocks = (none, t'.freeBlocks) := by
  suffices hlast : ∃ o, t'.freeBlocks = t.freeBlocks ++ [o] by
    obtain ⟨o, ho⟩ := hlast
    exact ⟨o, by rw [Call.onList, ho]⟩
  cases left with
  | none =>
    cases right with
    | none => exact release_free h
    | some r =>
      obtain ⟨_, t₁, hprev, h⟩ := bind_eq_ok.mp h
      obtain ⟨_, t₂, hflush, h⟩ := bind_eq_ok.mp h
      obtain ⟨o, ho⟩ := release_free h
      exact ⟨o, by rw [ho, nodeFlush_free hflush, modifyNode_eq hprev]⟩
  | some l =>
    cases right with
    | none =>
      obtain ⟨_, t₁, hnext, h⟩ := bind_eq_ok.mp h
      obtain ⟨_, t₂, hflush, h⟩ := bind_eq_ok.mp h
      obtain ⟨o, ho⟩ := release_free h
      exact ⟨o, by rw [ho, nodeFlush_free hflush, modifyNode_eq hnext]⟩
    | some r =>
      obtain ⟨_, t₁, hright, h⟩ := bind_eq_ok.mp h
      obtain ⟨_, t₂, hnext, h⟩ := bind_eq_ok.mp h
      obtain ⟨_, t₃, hleft, h⟩ := bind_eq_ok.mp h
      obtain ⟨_, t₄, hprev, h⟩ := bind_eq_ok.mp h
      obtain ⟨_, t₅, hflush, h⟩ := bind_eq_ok.mp h
      obtain ⟨_, t₆, hflush', h⟩ := bind_eq_ok.mp h
      obtain ⟨o, ho⟩ := release_free h
      refine ⟨o, ?_⟩
      rw [ho, nodeFlush_free hflush', nodeFlush_free hflush, modifyNode_eq hprev,
        (node_eq hleft).2, modifyNode_eq hnext, (node_eq hright).2]

end Tree

section Sessions

variable [Infinite α] (alloc : Allocator α ℤ)

theorem callOnRing_run (c : Call) (ho : Owns h head l) : Runs (c.onRing alloc head) h fun x h' ↦
    x = (c.onList l).1 ∧ Owns h' head (c.onList l).2 := by
  cases c with
  | append => exact takeBlock_run ho
  | delete offset =>
    exact (giveBlock_run alloc ho).seq fun _ h₁ ho₁ ↦ runs_pure ⟨rfl, ho₁⟩

theorem callsOnRing_run (cs : List Call) (ho : Owns h head l) :
    Runs (callsOnRing alloc head cs) h fun xs h' ↦
      xs = (callsOnList cs l).1 ∧ Owns h' head (callsOnList cs l).2 := by
  induction cs generalizing h l with
  | nil => exact runs_pure ⟨rfl, ho⟩
  | cons c cs ih =>
    refine (callOnRing_run alloc c ho).seq fun x h₁ ⟨hx, ho₁⟩ ↦ ?_
    refine (ih ho₁).seq fun xs h₂ ⟨hxs, ho₂⟩ ↦ runs_pure ⟨?_, ho₂⟩
    rw [hx, hxs]
    rfl

theorem length_callsOnList (cs : List Call) (l : List ℤ) :
    (callsOnList cs l).2.length ≤ l.length + cs.length := by
  induction cs generalizing l with
  | nil => exact le_rfl
  | cons c cs ih =>
    have hone : (c.onList l).2.length ≤ l.length + 1 := by
      cases c with
      | append => simp [Call.onList]; omega
      | delete offset => simp [Call.onList]
    have hrest := ih (c.onList l).2
    rw [callsOnList, List.length_cons]
    dsimp only
    omega

theorem length_loadFree (fs : BootFile) (l : List ℤ) :
    (loadFree fs l).length ≤ l.length + fs.length := by
  induction fs generalizing l with
  | nil => exact le_rfl
  | cons s fs ih =>
    rw [loadFree, List.length_cons]
    split_ifs with hend
    · omega
    · have hrest := ih (wrap 32 (strToHex s) :: l)
      rw [List.length_cons] at hrest
      omega

/-- The free list from `bplus_tree_init` to `bplus_tree_deinit`. -/
def session (head : α) (fuel : ℕ) (fields : BootFile) (cs : List Call) :
    H α ℤ (List (Option ℤ) × BootFile) := do
  listInit head
  loadBlocks alloc head fields
  let xs ← callsOnRing alloc head cs
  let stored ← storeBlocks head fuel
  return (xs, stored)

/-- The linked list does what the list of offsets does. No block is used after it has been freed,
and none is left when the session ends. -/
theorem session_refines (hlive : ∀ a, h.live a = true ↔ a = head) (fields : BootFile)
    (cs : List Call) (hfuel : fields.length + cs.length < fuel) :
    Runs (session alloc head fuel fields cs) h fun r h' ↦
      r.1 = (callsOnList cs (loadFree fields [])).1 ∧
      r.2 = (callsOnList cs (loadFree fields [])).2.map offsetStore ∧
      ∀ a, h'.live a = true ↔ a = head := by
  refine (ring_init hlive).seq fun _ h₁ ⟨hr₁, _⟩ ↦ ?_
  have ho₁ : Owns h₁ head [] := ⟨[], hr₁, rfl⟩
  refine (loadBlocks_run alloc fields ho₁).seq fun _ h₂ ho₂ ↦ ?_
  refine (callsOnRing_run alloc cs ho₂).seq fun xs h₃ ⟨hxs, ho₃⟩ ↦ ?_
  have hlen := length_callsOnList cs (loadFree fields [])
  have hlen' := length_loadFree fields []
  rw [List.length_nil] at hlen'
  refine (storeBlocks_run ho₃ (by omega)).seq fun stored h₄ ⟨hstored, as, hr₄, hnil⟩ ↦ ?_
  obtain rfl := List.map_eq_nil_iff.mp hnil
  exact runs_pure ⟨hxs, hstored, fun a ↦ by simpa using hr₄.live a⟩

/-- The allocator that takes the first cell it finds. -/
noncomputable def firstUnused : Allocator ℕ ℤ where
  pick h := sInf {a | h.live a = false}
  unused _ h := Nat.sInf_mem h

theorem session_refines_two : Runs (session firstUnused 0 5
    [offsetStore 128, offsetStore 256] [.append, .delete 512])
    ⟨fun _ ↦ 0, fun _ ↦ 0, fun _ ↦ 0, (· == 0)⟩ fun r h' ↦
      r = ([some 256, none], [offsetStore 128, offsetStore 512]) ∧
      ∀ a, h'.live a = true ↔ a = 0 := by
  refine (session_refines firstUnused (by simp) _ _ (by decide)).mono fun r h' ⟨h₁, h₂, h₃⟩ ↦ ?_
  refine ⟨Prod.ext (h₁.trans ?_) (h₂.trans ?_), h₃⟩
  · decide
  · decide

end Sessions

end MqssdModel.BPlusTree.FreeList
