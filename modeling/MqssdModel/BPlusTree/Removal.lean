import MqssdModel.BPlusTree.Insertion

namespace MqssdModel.BPlusTree.Removal

open Machine Insertion

inductive Sibling
  | left
  | right
  deriving DecidableEq

/-- The siblings are only looked at when the node has one on either side. -/
def siblingSelect (lsib rsib : Option Ptr) (parent : Ptr) (i : ℤ) : M Sibling := do
  if i = -1 then return .right
  if i = (← node parent).children - 2 then return .left
  let l ← node (← deref lsib)
  let r ← node (← deref rsib)
  return if l.children ≥ r.children then .left else .right

variable (cf : Config)

def nonLeafShiftFromLeft (c left parent : Ptr) (parentKeyIndex remove : ℤ) : M Unit := do
  memmove cf keyField c 1 c 0 remove
  memmove cf subField c 1 c 0 (remove + 1)
  store cf keyField c 0 (← load cf keyField parent parentKeyIndex)
  store cf keyField parent parentKeyIndex
    (← load cf keyField left ((← node left).children - 2))
  store cf subField c 0 (← load cf subField left ((← node left).children - 1))
  subNodeFlush c (← load cf subField c 0)
  modifyNode left fun n ↦ { n with children := n.children - 1 }

def nonLeafMergeIntoLeft (c left parent : Ptr) (parentKeyIndex remove : ℤ) : M Unit := do
  let l := (← node left).children
  let n := (← node c).children
  store cf keyField left (l - 1) (← load cf keyField parent parentKeyIndex)
  memmove cf keyField left l c 0 remove
  memmove cf subField left l c 0 (remove + 1)
  memmove cf keyField left (l + remove) c (remove + 1) (n - remove - 2)
  memmove cf subField left (l + remove + 1) c (remove + 2) (n - remove - 2)
  subNodesFlush cf left (fun _ ↦ false) (n - 1).toNat l
  modifyNode left fun m ↦ { m with children := m.children + (n - 1) }

def nonLeafShiftFromRight (c right parent : Ptr) (parentKeyIndex : ℤ) : M Unit := do
  let n := (← node c).children
  store cf keyField c (n - 1) (← load cf keyField parent parentKeyIndex)
  store cf keyField parent parentKeyIndex (← load cf keyField right 0)
  store cf subField c n (← load cf subField right 0)
  subNodeFlush c (← load cf subField c n)
  modifyNode c fun m ↦ { m with children := m.children + 1 }
  let r := (← node right).children
  memmove cf keyField right 0 right 1 (r - 2)
  memmove cf subField right 0 right 1 (r - 1)
  modifyNode right fun m ↦ { m with children := m.children - 1 }

def nonLeafMergeFromRight (c right parent : Ptr) (parentKeyIndex : ℤ) : M Unit := do
  store cf keyField c ((← node c).children - 1) (← load cf keyField parent parentKeyIndex)
  modifyNode c fun m ↦ { m with children := m.children + 1 }
  let n := (← node c).children
  let r := (← node right).children
  memmove cf keyField c (n - 1) right 0 (r - 1)
  memmove cf subField c (n - 1) right 0 r
  subNodesFlush cf c (fun _ ↦ false) r.toNat (n - 1)
  modifyNode c fun m ↦ { m with children := m.children + (r - 1) }

def nonLeafSimpleRemove (c : Ptr) (remove : ℤ) : M Unit := do
  let n := (← node c).children
  assert (n ≥ 2)
  memmove cf keyField c remove c (remove + 1) (n - remove - 2)
  memmove cf subField c (remove + 1) c (remove + 2) (n - remove - 2)
  modifyNode c fun m ↦ { m with children := m.children - 1 }

/-- `non_leaf_remove`; the fuel bounds the number of levels it climbs. -/
def nonLeafRemove : ℕ → Ptr → ℤ → M Unit
  | 0, _, _ => throw .fuel
  | fuel + 1, c, remove => do
    let n ← node c
    if n.parent = invalidOffset then
      if n.children = 2 then
        let root ← deref (← nodeFetch (← load cf subField c 0))
        modifyNode root fun m ↦ { m with parent := invalidOffset }
        let rootSelf := (← node root).self
        modify fun t ↦ { t with root := rootSelf }
        modify fun t ↦ { t with level := t.level - 1 }
        nodeDelete c none none
        nodeFlush (some root)
      else
        nonLeafSimpleRemove cf c remove
        nodeFlush (some c)
    else if n.children ≤ (cf.maxOrder + 1) / 2 then
      let lsib ← nodeFetch n.prev
      let rsib ← nodeFetch n.next
      let parent ← deref (← nodeFetch n.parent)
      let i := parentKeyIndex (← node parent) (← load cf keyField c 0)
      match ← siblingSelect lsib rsib parent i with
      | .left =>
        let left ← deref lsib
        if (← node left).children > (cf.maxOrder + 1) / 2 then
          nonLeafShiftFromLeft cf c left parent i remove
          nodeFlush (some c)
          nodeFlush lsib
          nodeFlush rsib
          nodeFlush (some parent)
        else
          nonLeafMergeIntoLeft cf c left parent i remove
          nodeDelete c lsib rsib
          nonLeafRemove fuel parent i
      | .right =>
        nonLeafSimpleRemove cf c remove
        let right ← deref rsib
        if (← node right).children > (cf.maxOrder + 1) / 2 then
          nonLeafShiftFromRight cf c right parent (i + 1)
          nodeFlush (some c)
          nodeFlush lsib
          nodeFlush rsib
          nodeFlush (some parent)
        else
          nonLeafMergeFromRight cf c right parent (i + 1)
          let rrsib ← nodeFetch (← node right).next
          nodeDelete right (some c) rrsib
          nodeFlush lsib
          nonLeafRemove fuel parent (i + 1)
    else
      nonLeafSimpleRemove cf c remove
      nodeFlush (some c)

def leafShiftFromLeft (leaf left parent : Ptr) (parentKeyIndex remove : ℤ) : M Unit := do
  memmove cf keyField leaf 1 leaf 0 remove
  memmove cf dataField leaf 1 leaf 0 remove
  store cf keyField leaf 0 (← load cf keyField left ((← node left).children - 1))
  store cf dataField leaf 0 (← load cf dataField left ((← node left).children - 1))
  modifyNode left fun n ↦ { n with children := n.children - 1 }
  store cf keyField parent parentKeyIndex (← load cf keyField leaf 0)

def leafMergeIntoLeft (leaf left : Ptr) (remove : ℤ) : M Unit := do
  let l := (← node left).children
  let n := (← node leaf).children
  memmove cf keyField left l leaf 0 remove
  memmove cf dataField left l leaf 0 remove
  memmove cf keyField left (l + remove) leaf (remove + 1) (n - remove - 1)
  memmove cf dataField left (l + remove) leaf (remove + 1) (n - remove - 1)
  modifyNode left fun m ↦ { m with children := m.children + (n - 1) }

def leafShiftFromRight (leaf right parent : Ptr) (parentKeyIndex : ℤ) : M Unit := do
  store cf keyField leaf (← node leaf).children (← load cf keyField right 0)
  store cf dataField leaf (← node leaf).children (← load cf dataField right 0)
  modifyNode leaf fun n ↦ { n with children := n.children + 1 }
  let r := (← node right).children
  memmove cf keyField right 0 right 1 (r - 1)
  memmove cf dataField right 0 right 1 (r - 1)
  modifyNode right fun n ↦ { n with children := n.children - 1 }
  store cf keyField parent parentKeyIndex (← load cf keyField right 0)

def leafMergeFromRight (leaf right : Ptr) : M Unit := do
  let n := (← node leaf).children
  let r := (← node right).children
  memmove cf keyField leaf n right 0 r
  memmove cf dataField leaf n right 0 r
  modifyNode leaf fun m ↦ { m with children := m.children + r }

def leafSimpleRemove (leaf : Ptr) (remove : ℤ) : M Unit := do
  let n := (← node leaf).children
  memmove cf keyField leaf remove leaf (remove + 1) (n - remove - 1)
  memmove cf dataField leaf remove leaf (remove + 1) (n - remove - 1)
  modifyNode leaf fun m ↦ { m with children := m.children - 1 }

def leafRemove (fuel : ℕ) (leaf : Ptr) (key : ℤ) : M ℤ := do
  let n ← node leaf
  let remove := keyBinarySearch n key
  if remove < 0 then return -1
  modify fun t ↦ { t with used := Function.update t.used leaf.slot true }
  if n.parent = invalidOffset then
    if n.children = 1 then
      assert (key = n.key 0)
      modify fun t ↦ { t with root := invalidOffset }
      modify fun t ↦ { t with level := 0 }
      nodeDelete leaf none none
    else
      leafSimpleRemove cf leaf remove
      nodeFlush (some leaf)
  else if n.children ≤ (cf.maxEntries + 1) / 2 then
    let lsib ← nodeFetch n.prev
    let rsib ← nodeFetch n.next
    let parent ← deref (← nodeFetch n.parent)
    let i := parentKeyIndex (← node parent) (← load cf keyField leaf 0)
    match ← siblingSelect lsib rsib parent i with
    | .left =>
      let left ← deref lsib
      if (← node left).children > (cf.maxEntries + 1) / 2 then
        leafShiftFromLeft cf leaf left parent i remove
        nodeFlush (some leaf)
        nodeFlush lsib
        nodeFlush rsib
        nodeFlush (some parent)
      else
        leafMergeIntoLeft cf leaf left remove
        nodeDelete leaf lsib rsib
        nonLeafRemove cf fuel parent i
    | .right =>
      leafSimpleRemove cf leaf remove
      let right ← deref rsib
      if (← node right).children > (cf.maxEntries + 1) / 2 then
        leafShiftFromRight cf leaf right parent (i + 1)
        nodeFlush (some leaf)
        nodeFlush lsib
        nodeFlush rsib
        nodeFlush (some parent)
      else
        leafMergeFromRight cf leaf right
        let rrsib ← nodeFetch (← node right).next
        nodeDelete right (some leaf) rrsib
        nodeFlush lsib
        nonLeafRemove cf fuel parent (i + 1)
  else
    leafSimpleRemove cf leaf remove
    nodeFlush (some leaf)
  return 0

def bplusTreeDelete (fuel : ℕ) (key : ℤ) : M ℤ := do
  let start ← nodeSeek (← get).root
  descend cf key (fun leaf ↦ leafRemove cf fuel leaf key) (pure (-1)) fuel start

def bplusTreePut (fuel : ℕ) (key data : ℤ) : M ℤ :=
  if data ≠ 0 then bplusTreeInsert cf fuel key data else bplusTreeDelete cf fuel key

end MqssdModel.BPlusTree.Removal
