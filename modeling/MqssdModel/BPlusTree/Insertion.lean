import MqssdModel.BPlusTree.Machine

namespace MqssdModel.BPlusTree.Insertion

open Machine

variable (cf : Config)

def nonLeafSplitLeft (c left lch rch : Ptr) (key insert split : ℤ) : M ℤ := do
  leftNodeAdd cf c left
  let pivot := insert
  modifyNode left fun n ↦ { n with children := split + 1 }
  modifyNode c fun n ↦ { n with children := cf.maxOrder - split }
  memmove cf keyField left 0 c 0 pivot
  memmove cf subField left 0 c 0 pivot
  memmove cf keyField left (pivot + 1) c pivot (split - pivot)
  memmove cf subField left (pivot + 1) c pivot (split - pivot)
  subNodesFlush cf left (fun i ↦ i = pivot || i = pivot + 1) (← node left).children.toNat 0
  store cf keyField left pivot key
  let splitKey ←
    if pivot = split then
      subNodeUpdate cf left pivot lch
      subNodeUpdate cf c 0 rch
      pure key
    else
      subNodeUpdate cf left pivot lch
      subNodeUpdate cf left (pivot + 1) rch
      store cf subField c 0 (← load cf subField c split)
      load cf keyField c (split - 1)
  memmove cf keyField c 0 c split ((← node c).children - 1)
  memmove cf subField c 1 c (split + 1) ((← node c).children - 1)
  return splitKey

def nonLeafSplitRight1 (c right lch rch : Ptr) (key split : ℤ) : M ℤ := do
  rightNodeAdd cf c right
  let splitKey ← load cf keyField c (split - 1)
  let pivot := 0
  modifyNode c fun n ↦ { n with children := split }
  modifyNode right fun n ↦ { n with children := cf.maxOrder - split + 1 }
  store cf keyField right 0 key
  subNodeUpdate cf right pivot lch
  subNodeUpdate cf right (pivot + 1) rch
  memmove cf keyField right (pivot + 1) c split ((← node right).children - 2)
  memmove cf subField right (pivot + 2) c (split + 1) ((← node right).children - 2)
  subNodesFlush cf right (fun _ ↦ false) ((← node right).children - (pivot + 2)).toNat (pivot + 2)
  return splitKey

def nonLeafSplitRight2 (c right lch rch : Ptr) (key insert split : ℤ) : M ℤ := do
  rightNodeAdd cf c right
  let splitKey ← load cf keyField c split
  let pivot := insert - split - 1
  modifyNode c fun n ↦ { n with children := split + 1 }
  modifyNode right fun n ↦ { n with children := cf.maxOrder - split }
  memmove cf keyField right 0 c (split + 1) pivot
  memmove cf subField right 0 c (split + 1) pivot
  store cf keyField right pivot key
  subNodeUpdate cf right pivot lch
  subNodeUpdate cf right (pivot + 1) rch
  memmove cf keyField right (pivot + 1) c insert (cf.maxOrder - insert - 1)
  memmove cf subField right (pivot + 2) c (insert + 1) (cf.maxOrder - insert - 1)
  subNodesFlush cf right (fun i ↦ i = pivot || i = pivot + 1) (← node right).children.toNat 0
  return splitKey

def nonLeafSimpleInsert (c lch rch : Ptr) (key insert : ℤ) : M Unit := do
  memmove cf keyField c (insert + 1) c insert ((← node c).children - 1 - insert)
  memmove cf subField c (insert + 2) c (insert + 1) ((← node c).children - 1 - insert)
  store cf keyField c insert key
  subNodeUpdate cf c insert lch
  subNodeUpdate cf c (insert + 1) rch
  modifyNode c fun n ↦ { n with children := n.children + 1 }

/-- `non_leaf_insert`; `build` is the call of `parent_node_build` one level up. -/
def nonLeafInsertWith (build : Ptr → Ptr → ℤ → M ℤ) (c lch rch : Ptr) (key : ℤ) : M ℤ := do
  let found := keyBinarySearch (← node c) key
  assert (found < 0)
  let insert := -found - 1
  if (← node c).children = cf.maxOrder then
    let split := (← node c).children / 2
    let sibling ← nonLeafNew
    if insert < split then
      let splitKey ← nonLeafSplitLeft cf c sibling lch rch key insert split
      build sibling c splitKey
    else if insert = split then
      let splitKey ← nonLeafSplitRight1 cf c sibling lch rch key split
      build c sibling splitKey
    else
      let splitKey ← nonLeafSplitRight2 cf c sibling lch rch key insert split
      build c sibling splitKey
  else
    nonLeafSimpleInsert cf c lch rch key insert
    nodeFlush (some c)
    return 0

/-- `parent_node_build`; the fuel bounds the number of levels it climbs. -/
def parentNodeBuild : ℕ → Ptr → Ptr → ℤ → M ℤ
  | 0, _, _, _ => throw .fuel
  | fuel + 1, lch, rch, key => do
    let l ← node lch
    let r ← node rch
    if l.parent = invalidOffset ∧ r.parent = invalidOffset then
      let parent ← nonLeafNew
      store cf keyField parent 0 key
      store cf subField parent 0 l.self
      store cf subField parent 1 r.self
      modifyNode parent fun n ↦ { n with children := 2 }
      let root ← newNodeAppend cf parent
      modify fun t ↦ { t with root := root }
      modifyNode lch fun n ↦ { n with parent := root }
      modifyNode rch fun n ↦ { n with parent := root }
      modify fun t ↦ { t with level := t.level + 1 }
      nodeFlush (some lch)
      nodeFlush (some rch)
      nodeFlush (some parent)
      return 0
    else if r.parent = invalidOffset then
      let c ← deref (← nodeFetch l.parent)
      nonLeafInsertWith cf (parentNodeBuild fuel) c lch rch key
    else
      let c ← deref (← nodeFetch r.parent)
      nonLeafInsertWith cf (parentNodeBuild fuel) c lch rch key

def leafSplitLeft (leaf left : Ptr) (key data insert : ℤ) : M ℤ := do
  let split := ((← node leaf).children + 1) / 2
  leftNodeAdd cf leaf left
  let pivot := insert
  modifyNode left fun n ↦ { n with children := split }
  modifyNode leaf fun n ↦ { n with children := cf.maxEntries - split + 1 }
  memmove cf keyField left 0 leaf 0 pivot
  memmove cf dataField left 0 leaf 0 pivot
  store cf keyField left pivot key
  store cf dataField left pivot data
  memmove cf keyField left (pivot + 1) leaf pivot (split - pivot - 1)
  memmove cf dataField left (pivot + 1) leaf pivot (split - pivot - 1)
  memmove cf keyField leaf 0 leaf (split - 1) (← node leaf).children
  memmove cf dataField leaf 0 leaf (split - 1) (← node leaf).children
  load cf keyField leaf 0

def leafSplitRight (leaf right : Ptr) (key data insert : ℤ) : M ℤ := do
  let split := ((← node leaf).children + 1) / 2
  rightNodeAdd cf leaf right
  let pivot := insert - split
  modifyNode leaf fun n ↦ { n with children := split }
  modifyNode right fun n ↦ { n with children := cf.maxEntries - split + 1 }
  memmove cf keyField right 0 leaf split pivot
  memmove cf dataField right 0 leaf split pivot
  store cf keyField right pivot key
  store cf dataField right pivot data
  memmove cf keyField right (pivot + 1) leaf insert (cf.maxEntries - insert)
  memmove cf dataField right (pivot + 1) leaf insert (cf.maxEntries - insert)
  load cf keyField right 0

def leafSimpleInsert (leaf : Ptr) (key data insert : ℤ) : M Unit := do
  memmove cf keyField leaf (insert + 1) leaf insert ((← node leaf).children - insert)
  memmove cf dataField leaf (insert + 1) leaf insert ((← node leaf).children - insert)
  store cf keyField leaf insert key
  store cf dataField leaf insert data
  modifyNode leaf fun n ↦ { n with children := n.children + 1 }

/-- The leaf comes out of `node_seek`, which leaves its cache free until it is known that
the leaf changes. -/
def leafInsert (fuel : ℕ) (leaf : Ptr) (key data : ℤ) : M ℤ := do
  let found := keyBinarySearch (← node leaf) key
  if found ≥ 0 then return -1
  let insert := -found - 1
  modify fun t ↦ { t with used := Function.update t.used leaf.slot true }
  if (← node leaf).children = cf.maxEntries then
    let split := (cf.maxEntries + 1) / 2
    let sibling ← leafNew
    if insert < split then
      let splitKey ← leafSplitLeft cf leaf sibling key data insert
      parentNodeBuild cf fuel sibling leaf splitKey
    else
      let splitKey ← leafSplitRight cf leaf sibling key data insert
      parentNodeBuild cf fuel leaf sibling splitKey
  else
    leafSimpleInsert cf leaf key data insert
    nodeFlush (some leaf)
    return 0

/-- The child in which the search for `key` goes on. -/
def childFor (c : Ptr) (key : ℤ) : M ℤ := do
  let i := keyBinarySearch (← node c) key
  if i ≥ 0 then load cf subField c (i + 1) else load cf subField c (-i - 1)

/-- The search loop of `bplus_tree_insert` and `bplus_tree_delete`: `atLeaf` is called on
the leaf, `atEnd` when there is none. -/
def descend (key : ℤ) (atLeaf : Ptr → M ℤ) (atEnd : M ℤ) : ℕ → Option Ptr → M ℤ
  | _, none => atEnd
  | 0, some _ => throw .fuel
  | fuel + 1, some c => do
    if isLeaf (← node c) then atLeaf c
    else
      let next ← nodeSeek (← childFor cf c key)
      descend key atLeaf atEnd fuel next

def newRoot (key data : ℤ) : M ℤ := do
  let root ← leafNew
  store cf keyField root 0 key
  store cf dataField root 0 data
  modifyNode root fun n ↦ { n with children := 1 }
  let offset ← newNodeAppend cf root
  modify fun t ↦ { t with root := offset }
  modify fun t ↦ { t with level := 1 }
  nodeFlush (some root)
  return 0

def bplusTreeInsert (fuel : ℕ) (key data : ℤ) : M ℤ := do
  let start ← nodeSeek (← get).root
  descend cf key (fun leaf ↦ leafInsert cf fuel leaf key data) (newRoot cf key data) fuel start

end MqssdModel.BPlusTree.Insertion
