import Mathlib.Data.Int.Bitwise
import Mathlib.Data.List.FinRange
import MqssdModel.Data.Arrays

namespace MqssdModel.BPlusTree.Machine

open Data.Arrays

def invalidOffset : ℤ := 0xdeadbeef

inductive NodeType
  | leaf
  | nonLeaf
  deriving DecidableEq

/-- One block. `data` and `sub` are the values of a leaf and the children of a non-leaf;
what lies behind the used part of an array is left over from earlier uses of the buffer. -/
structure Node where
  self : ℤ
  parent : ℤ
  prev : ℤ
  next : ℤ
  type : NodeType
  children : ℤ
  key : ℤ → ℤ
  data : ℤ → ℤ
  sub : ℤ → ℤ

/-- The static variables `_block_size`, `_max_order` and `_max_entries`. -/
structure Config where
  blockSize : ℤ
  maxOrder : ℤ
  maxEntries : ℤ
  deriving DecidableEq

/-- One of the `MIN_CACHE_NUM` node caches. -/
abbrev Slot := Fin 5

/-- A pointer to a node cache. The turn is not in the source: it counts how often the cache had
changed hands when the pointer was made, so that a pointer to a cache that has been returned or
given to another node is known as such. -/
structure Ptr where
  slot : Slot
  turn : ℕ
  deriving DecidableEq

structure Tree where
  caches : Slot → Node
  used : Slot → Bool
  turns : Slot → ℕ
  level : ℤ
  root : ℤ
  fileSize : ℤ
  freeBlocks : List ℤ
  file : ℤ → Option Node

inductive Fault
  | assertion
  | nullPointer
  | outOfBounds
  | unwritten
  | dangling
  | heldTwice
  | fuel
  deriving DecidableEq

abbrev M := StateT Tree (Except Fault)

def isLeaf (n : Node) : Bool := n.type = .leaf

/-- An array of the block with the number of elements that fit. -/
structure Field where
  get : Node → ℤ → ℤ
  set : Node → (ℤ → ℤ) → Node
  cap : Config → Node → ℤ

def keyField : Field where
  get n := n.key
  set n a := { n with key := a }
  cap cf n := if isLeaf n then cf.maxEntries else cf.maxOrder - 1

def dataField : Field where
  get n := n.data
  set n a := { n with data := a }
  cap cf _ := cf.maxEntries

def subField : Field where
  get n := n.sub
  set n a := { n with sub := a }
  cap cf _ := cf.maxOrder

def node (c : Ptr) : M Node := do
  let t ← get
  if t.turns c.slot = c.turn then return t.caches c.slot else throw .dangling

def setNode (c : Ptr) (n : Node) : M Unit := do
  let t ← get
  if t.turns c.slot = c.turn then set { t with caches := Function.update t.caches c.slot n }
  else throw .dangling

def modifyNode (c : Ptr) (f : Node → Node) : M Unit := do setNode c (f (← node c))

def deref : Option Ptr → M Ptr
  | some c => return c
  | none => throw .nullPointer

def assert (p : Bool) : M Unit := if p then return else throw .assertion

def load (cf : Config) (f : Field) (c : Ptr) (i : ℤ) : M ℤ := do
  let n ← node c
  if 0 ≤ i ∧ i < f.cap cf n then return f.get n i else throw .outOfBounds

def store (cf : Config) (f : Field) (c : Ptr) (i v : ℤ) : M Unit := do
  let n ← node c
  if 0 ≤ i ∧ i < f.cap cf n then setNode c (f.set n (Function.update (f.get n) i v))
  else throw .outOfBounds

def memmove (cf : Config) (f : Field) (dst : Ptr) (d : ℤ) (src : Ptr) (s n : ℤ) : M Unit := do
  let a ← node dst
  let b ← node src
  if 0 ≤ n ∧ 0 ≤ d ∧ d + n ≤ f.cap cf a ∧ 0 ≤ s ∧ s + n ≤ f.cap cf b then
    setNode dst (f.set a (blit (f.get a) d (f.get b) s n))
  else throw .outOfBounds

/-- The loop of `key_binary_search`; the gap `high - low` shrinks in every round. -/
def searchLoop (arr : ℤ → ℤ) (target : ℤ) : ℕ → ℤ → ℤ → ℤ
  | 0, _, high => high
  | gap + 1, low, high =>
    if low + 1 < high then
      let mid := low + (high - low) / 2
      if target > arr mid then searchLoop arr target gap mid high
      else searchLoop arr target gap low mid
    else high

def keyBinarySearch (n : Node) (target : ℤ) : ℤ :=
  let len := if isLeaf n then n.children else n.children - 1
  let high := searchLoop n.key target (len + 1).toNat (-1) len
  if high ≥ len ∨ n.key high ≠ target then -high - 1 else high

def parentKeyIndex (parent : Node) (key : ℤ) : ℤ :=
  let index := keyBinarySearch parent key
  if index ≥ 0 then index else -index - 2

def unusedSlot (t : Tree) : Option Slot := (List.finRange 5).find? fun i ↦ !t.used i

/-- The cache changes hands; pointers to it that exist are no longer good. -/
def handOver (t : Tree) (i : Slot) : Tree :=
  { t with turns := Function.update t.turns i (t.turns i + 1) }

def pointer (t : Tree) (i : Slot) : Ptr := ⟨i, t.turns i⟩

def cacheRefer : M Ptr := do
  match unusedSlot (← get) with
  | some i =>
    modify fun t ↦ { handOver t i with used := Function.update t.used i true }
    return pointer (← get) i
  | none => throw .assertion

def cacheDefer (c : Ptr) : M Unit := do
  let t ← get
  if t.turns c.slot = c.turn then
    set { handOver t c.slot with used := Function.update t.used c.slot false }
  else throw .dangling

/-- Whether a cache in use other than `i` holds the block at `offset`. -/
def held (t : Tree) (i : Slot) (offset : ℤ) : Bool :=
  (List.finRange 5).any fun j ↦ j ≠ i && t.used j && (t.caches j).self = offset

/-- The source does not check this; a block in two caches would be written back from both. -/
def checkHeld (c : Ptr) (offset : ℤ) : M Unit := do
  if held (← get) c.slot offset then throw .heldTwice

def nodeNew : M Ptr := do
  let c ← cacheRefer
  modifyNode c fun n ↦ { n with
    self := invalidOffset
    parent := invalidOffset
    prev := invalidOffset
    next := invalidOffset
    children := 0 }
  return c

def nonLeafNew : M Ptr := do
  let c ← nodeNew
  modifyNode c fun n ↦ { n with type := .nonLeaf }
  return c

def leafNew : M Ptr := do
  let c ← nodeNew
  modifyNode c fun n ↦ { n with type := .leaf }
  return c

def pread (c : Ptr) (offset : ℤ) : M Unit := do
  checkHeld c offset
  match (← get).file offset with
  | some n => setNode c n
  | none => throw .unwritten

def pwrite (c : Ptr) (offset : ℤ) : M Unit := do
  let n ← node c
  modify fun t ↦ { t with file := Function.update t.file offset (some n) }

def nodeFetch (offset : ℤ) : M (Option Ptr) := do
  if offset = invalidOffset then return none
  let c ← cacheRefer
  pread c offset
  return some c

def nodeSeek (offset : ℤ) : M (Option Ptr) := do
  if offset = invalidOffset then return none
  match unusedSlot (← get) with
  | some i =>
    modify fun t ↦ handOver t i
    let c := pointer (← get) i
    pread c offset
    return some c
  | none => throw .assertion

def nodeFlush : Option Ptr → M Unit
  | none => return
  | some c => do
    pwrite c (← node c).self
    cacheDefer c

def newNodeAppend (cf : Config) (c : Ptr) : M ℤ := do
  match (← get).freeBlocks with
  | [] =>
    let size := (← get).fileSize
    checkHeld c size
    modifyNode c fun n ↦ { n with self := size }
    modify fun t ↦ { t with fileSize := size + cf.blockSize }
  | offset :: rest =>
    modify fun t ↦ { t with freeBlocks := rest }
    checkHeld c offset
    modifyNode c fun n ↦ { n with self := offset }
  return (← node c).self

def nodeDelete (c : Ptr) (left right : Option Ptr) : M Unit := do
  match left, right with
  | some l, some r =>
    let rightSelf := (← node r).self
    modifyNode l fun n ↦ { n with next := rightSelf }
    let leftSelf := (← node l).self
    modifyNode r fun n ↦ { n with prev := leftSelf }
    nodeFlush right
    nodeFlush left
  | some l, none =>
    modifyNode l fun n ↦ { n with next := invalidOffset }
    nodeFlush left
  | none, some r =>
    modifyNode r fun n ↦ { n with prev := invalidOffset }
    nodeFlush right
  | none, none => pure ()
  let self := (← node c).self
  assert (self ≠ invalidOffset)
  modify fun t ↦ { t with freeBlocks := t.freeBlocks ++ [self] }
  cacheDefer c

def subNodeUpdate (cf : Config) (parent : Ptr) (index : ℤ) (subNode : Ptr) : M Unit := do
  let self := (← node subNode).self
  assert (self ≠ invalidOffset)
  store cf subField parent index self
  let parentSelf := (← node parent).self
  modifyNode subNode fun n ↦ { n with parent := parentSelf }
  nodeFlush (some subNode)

def subNodeFlush (parent : Ptr) (subOffset : ℤ) : M Unit := do
  match ← nodeFetch subOffset with
  | none => throw .assertion
  | some c =>
    let parentSelf := (← node parent).self
    modifyNode c fun n ↦ { n with parent := parentSelf }
    nodeFlush (some c)

/-- The loops over the children of `parent` from index `i` on, `count` of them, that
flush every child except those at the indices skipped. -/
def subNodesFlush (cf : Config) (parent : Ptr) (skip : ℤ → Bool) : ℕ → ℤ → M Unit
  | 0, _ => return
  | count + 1, i => do
    if skip i then pure ()
    else subNodeFlush parent (← load cf subField parent i)
    subNodesFlush cf parent skip count (i + 1)

def leftNodeAdd (cf : Config) (c left : Ptr) : M Unit := do
  let leftSelf ← newNodeAppend cf left
  match ← nodeFetch (← node c).prev with
  | some prev =>
    modifyNode prev fun n ↦ { n with next := leftSelf }
    let prevSelf := (← node prev).self
    modifyNode left fun n ↦ { n with prev := prevSelf }
    nodeFlush (some prev)
  | none => modifyNode left fun n ↦ { n with prev := invalidOffset }
  let self := (← node c).self
  modifyNode left fun n ↦ { n with next := self }
  modifyNode c fun n ↦ { n with prev := leftSelf }

def rightNodeAdd (cf : Config) (c right : Ptr) : M Unit := do
  let rightSelf ← newNodeAppend cf right
  match ← nodeFetch (← node c).next with
  | some next =>
    modifyNode next fun n ↦ { n with prev := rightSelf }
    let nextSelf := (← node next).self
    modifyNode right fun n ↦ { n with next := nextSelf }
    nodeFlush (some next)
  | none => modifyNode right fun n ↦ { n with next := invalidOffset }
  let self := (← node c).self
  modifyNode right fun n ↦ { n with prev := self }
  modifyNode c fun n ↦ { n with next := rightSelf }

end MqssdModel.BPlusTree.Machine
