import MqssdModel.BPlusTree.Removal
import MqssdModel.Data.TotalRun

namespace MqssdModel.BPlusTree.Checking

open Data.TotalRun Machine Insertion Removal

variable (cf : Config)

/-- The node is the child behind the key `i` of its parent, and the sibling that has been chosen
exists and is the child next to it. -/
def checkSlot (c parent : Ptr) (lsib rsib : Option Ptr) (i : ℤ) (s : Sibling) : M Unit := do
  let n ← node c
  let p ← node parent
  assert (0 ≤ i + 1 ∧ i + 1 < p.children ∧ p.sub (i + 1) = n.self)
  match s with
  | .left =>
    let l ← node (← deref lsib)
    assert (0 ≤ i ∧ p.sub i = l.self)
  | .right =>
    let r ← node (← deref rsib)
    assert (i + 2 < p.children ∧ p.sub (i + 2) = r.self)

/-- `non_leaf_remove` with the check at every node that is rebalanced. -/
def nonLeafRemoveChecked : ℕ → Ptr → ℤ → M Unit
  | 0, _, _ => throw .fuel
  | fuel + 1, c, remove => do
    let n ← node c
    if n.parent = invalidOffset then
      if n.children = 2 then
        let root ← deref (← nodeFetch (← load cf subField c 0))
        modifyNode root fun m ↦ { m with parent := invalidOffset }
        let rootSelf := (← node root).self
        modify fun t ↦ { t with root := rootSelf }
        modify fun t ↦ { t with level := t.level - 1 }
        nodeDelete c none none
        nodeFlush (some root)
      else
        nonLeafSimpleRemove cf c remove
        nodeFlush (some c)
    else if n.children ≤ (cf.maxOrder + 1) / 2 then
      let lsib ← nodeFetch n.prev
      let rsib ← nodeFetch n.next
      let parent ← deref (← nodeFetch n.parent)
      let i := parentKeyIndex (← node parent) (← load cf keyField c 0)
      let s ← siblingSelect lsib rsib parent i
      checkSlot c parent lsib rsib i s
      match s with
      | .left =>
        let left ← deref lsib
        if (← node left).children > (cf.maxOrder + 1) / 2 then
          nonLeafShiftFromLeft cf c left parent i remove
          nodeFlush (some c)
          nodeFlush lsib
          nodeFlush rsib
          nodeFlush (some parent)
        else
          nonLeafMergeIntoLeft cf c left parent i remove
          nodeDelete c lsib rsib
          nonLeafRemoveChecked fuel parent i
      | .right =>
        nonLeafSimpleRemove cf c remove
        let right ← deref rsib
        if (← node right).children > (cf.maxOrder + 1) / 2 then
          nonLeafShiftFromRight cf c right parent (i + 1)
          nodeFlush (some c)
          nodeFlush lsib
          nodeFlush rsib
          nodeFlush (some parent)
        else
          nonLeafMergeFromRight cf c right parent (i + 1)
          let rrsib ← nodeFetch (← node right).next
          nodeDelete right (some c) rrsib
          nodeFlush lsib
          nonLeafRemoveChecked fuel parent (i + 1)
    else
      nonLeafSimpleRemove cf c remove
      nodeFlush (some c)

def leafRemoveChecked (fuel : ℕ) (leaf : Ptr) (key : ℤ) : M ℤ := do
  let n ← node leaf
  let remove := keyBinarySearch n key
  if remove < 0 then return -1
  modify fun t ↦ { t with used := Function.update t.used leaf.slot true }
  if n.parent = invalidOffset then
    if n.children = 1 then
      assert (key = n.key 0)
      modify fun t ↦ { t with root := invalidOffset }
      modify fun t ↦ { t with level := 0 }
      nodeDelete leaf none none
    else
      leafSimpleRemove cf leaf remove
      nodeFlush (some leaf)
  else if n.children ≤ (cf.maxEntries + 1) / 2 then
    let lsib ← nodeFetch n.prev
    let rsib ← nodeFetch n.next
    let parent ← deref (← nodeFetch n.parent)
    let i := parentKeyIndex (← node parent) (← load cf keyField leaf 0)
    let s ← siblingSelect lsib rsib parent i
    checkSlot leaf parent lsib rsib i s
    match s with
    | .left =>
      let left ← deref lsib
      if (← node left).children > (cf.maxEntries + 1) / 2 then
        leafShiftFromLeft cf leaf left parent i remove
        nodeFlush (some leaf)
        nodeFlush lsib
        nodeFlush rsib
        nodeFlush (some parent)
      else
        leafMergeIntoLeft cf leaf left remove
        nodeDelete leaf lsib rsib
        nonLeafRemoveChecked cf fuel parent i
    | .right =>
      leafSimpleRemove cf leaf remove
      let right ← deref rsib
      if (← node right).children > (cf.maxEntries + 1) / 2 then
        leafShiftFromRight cf leaf right parent (i + 1)
        nodeFlush (some leaf)
        nodeFlush lsib
        nodeFlush rsib
        nodeFlush (some parent)
      else
        leafMergeFromRight cf leaf right
        let rrsib ← nodeFetch (← node right).next
        nodeDelete right (some leaf) rrsib
        nodeFlush lsib
        nonLeafRemoveChecked cf fuel parent (i + 1)
  else
    leafSimpleRemove cf leaf remove
    nodeFlush (some leaf)
  return 0

def bplusTreeDeleteChecked (fuel : ℕ) (key : ℤ) : M ℤ := do
  let start ← nodeSeek (← get).root
  descend cf key (fun leaf ↦ leafRemoveChecked cf fuel leaf key) (pure (-1)) fuel start

def bplusTreePutChecked (fuel : ℕ) (key data : ℤ) : M ℤ :=
  if data ≠ 0 then bplusTreeInsert cf fuel key data else bplusTreeDeleteChecked cf fuel key

section Refinement

variable {cf}

theorem node_quiet {c : Ptr} {t t' : Tree} {n : Node} (h : node c t = .ok (n, t')) : t' = t := by
  obtain ⟨_, _, hget, h⟩ := bind_eq_ok.mp h
  cases hget
  split_ifs at h
  · cases h
    rfl
  · cases h

theorem node_eq {c : Ptr} {t t' : Tree} {n : Node} (h : node c t = .ok (n, t')) :
    n = t.caches c.slot ∧ t' = t := by
  obtain ⟨_, _, hget, h⟩ := bind_eq_ok.mp h
  cases hget
  split_ifs at h
  · cases h
    exact ⟨rfl, rfl⟩
  · cases h

theorem setNode_eq {c : Ptr} {t t' : Tree} {n : Node} {u : Unit}
    (h : setNode c n t = .ok (u, t')) :
    t' = { t with caches := Function.update t.caches c.slot n } := by
  obtain ⟨_, _, hget, h⟩ := bind_eq_ok.mp h
  cases hget
  split_ifs at h
  · cases h
    rfl
  · cases h

theorem modifyNode_eq {c : Ptr} {t t' : Tree} {f : Node → Node} {u : Unit}
    (h : modifyNode c f t = .ok (u, t')) :
    t' = { t with caches := Function.update t.caches c.slot (f (t.caches c.slot)) } := by
  obtain ⟨n, t₁, hnode, h⟩ := bind_eq_ok.mp h
  obtain ⟨rfl, rfl⟩ := node_eq hnode
  exact setNode_eq h

theorem checkHeld_quiet {c : Ptr} {t t' : Tree} {q : ℤ} {u : Unit}
    (h : checkHeld c q t = .ok (u, t')) : t' = t := by
  obtain ⟨_, _, hget, h⟩ := bind_eq_ok.mp h
  cases hget
  split_ifs at h
  · cases h
  · cases h
    rfl

theorem assert_quiet {p : Bool} {t t' : Tree} {u : Unit} (h : assert p t = .ok (u, t')) :
    t' = t := by
  unfold assert at h
  split_ifs at h
  · cases h
    rfl
  · cases h

theorem deref_quiet {s : Option Ptr} {t t' : Tree} {c : Ptr} (h : deref s t = .ok (c, t')) :
    t' = t := by
  cases s with
  | none => cases h
  | some c =>
    cases h
    rfl

theorem checkSlot_quiet {c parent : Ptr} {lsib rsib : Option Ptr} {i : ℤ} {s : Sibling}
    {t t' : Tree} {u : Unit} (h : checkSlot c parent lsib rsib i s t = .ok (u, t')) : t' = t := by
  obtain ⟨n, t₁, h₁, h⟩ := bind_eq_ok.mp h
  obtain ⟨p, t₂, h₂, h⟩ := bind_eq_ok.mp h
  obtain ⟨_, t₃, h₃, h⟩ := bind_eq_ok.mp h
  have hfirst : t₃ = t :=
    (assert_quiet h₃).trans ((node_quiet h₂).trans (node_quiet h₁))
  cases s with
  | left =>
    obtain ⟨lc, t₄, h₄, h⟩ := bind_eq_ok.mp h
    obtain ⟨l, t₅, h₅, h⟩ := bind_eq_ok.mp h
    exact (assert_quiet h).trans ((node_quiet h₅).trans ((deref_quiet h₄).trans hfirst))
  | right =>
    obtain ⟨rc, t₄, h₄, h⟩ := bind_eq_ok.mp h
    obtain ⟨r, t₅, h₅, h⟩ := bind_eq_ok.mp h
    exact (assert_quiet h).trans ((node_quiet h₅).trans ((deref_quiet h₄).trans hfirst))

variable (cf)

theorem nonLeafRemoveChecked_refines (fuel : ℕ) (c : Ptr) (remove : ℤ) :
    Refines (nonLeafRemoveChecked cf fuel c remove) (nonLeafRemove cf fuel c remove) := by
  induction fuel generalizing c remove with
  | zero => exact refines_refl _
  | succ fuel ih =>
    refine refines_seq fun n ↦ refines_ite (refines_refl _) (refines_ite ?_ (refines_refl _))
    refine refines_seq fun lsib ↦ refines_seq fun rsib ↦ refines_seq fun p ↦ refines_seq fun parent ↦
      refines_seq fun pn ↦ refines_seq fun key ↦ refines_seq fun s ↦ ?_
    refine Refines.skip (fun _ _ _ ↦ checkSlot_quiet) fun _ ↦ ?_
    cases s with
    | left =>
      refine refines_seq fun left ↦ refines_seq fun l ↦ refines_ite (refines_refl _) ?_
      exact refines_seq fun _ ↦ refines_seq fun _ ↦ ih _ _
    | right =>
      refine refines_seq fun _ ↦ refines_seq fun right ↦ refines_seq fun r ↦
        refines_ite (refines_refl _) ?_
      exact refines_seq fun _ ↦ refines_seq fun _ ↦ refines_seq fun _ ↦ refines_seq fun _ ↦
        refines_seq fun _ ↦ ih _ _

theorem leafRemoveChecked_refines (fuel : ℕ) (leaf : Ptr) (key : ℤ) :
    Refines (leafRemoveChecked cf fuel leaf key) (leafRemove cf fuel leaf key) := by
  refine refines_seq fun n ↦ refines_ite (refines_refl _) (refines_seq fun _ ↦ ?_)
  refine refines_ite (refines_refl _) (refines_ite ?_ (refines_refl _))
  refine refines_seq fun lsib ↦ refines_seq fun rsib ↦ refines_seq fun p ↦ refines_seq fun parent ↦
    refines_seq fun pn ↦ refines_seq fun key ↦ refines_seq fun s ↦ ?_
  refine Refines.skip (fun _ _ _ ↦ checkSlot_quiet) fun _ ↦ ?_
  have hremove := nonLeafRemoveChecked_refines cf fuel parent
  cases s with
  | left =>
    refine refines_seq fun left ↦ refines_seq fun l ↦ refines_ite (refines_refl _) ?_
    exact refines_seq fun _ ↦ refines_seq fun _ ↦ (hremove _).bind fun _ ↦ refines_refl _
  | right =>
    refine refines_seq fun _ ↦ refines_seq fun right ↦ refines_seq fun r ↦
      refines_ite (refines_refl _) ?_
    exact refines_seq fun _ ↦ refines_seq fun _ ↦ refines_seq fun _ ↦ refines_seq fun _ ↦
      refines_seq fun _ ↦ (hremove _).bind fun _ ↦ refines_refl _

theorem descend_refines {atLeaf atLeaf' : Ptr → M ℤ} {atEnd : M ℤ} (key : ℤ)
    (h : ∀ c, Refines (atLeaf c) (atLeaf' c)) (fuel : ℕ) (start : Option Ptr) :
    Refines (descend cf key atLeaf atEnd fuel start) (descend cf key atLeaf' atEnd fuel start) := by
  induction fuel generalizing start with
  | zero =>
    cases start with
    | none => exact refines_refl _
    | some c => exact refines_refl _
  | succ fuel ih =>
    cases start with
    | none => exact refines_refl _
    | some c =>
      refine refines_seq fun n ↦ refines_ite (h c) ?_
      exact refines_seq fun o ↦ refines_seq fun next ↦ ih next

/-- The check changes nothing but that the program may stop at it. -/
theorem bplusTreePutChecked_refines (fuel : ℕ) (key data : ℤ) :
    Refines (bplusTreePutChecked cf fuel key data) (bplusTreePut cf fuel key data) := by
  refine refines_ite (refines_refl _) (refines_seq fun t ↦ refines_seq fun start ↦ ?_)
  exact descend_refines cf key (fun c ↦ leafRemoveChecked_refines cf fuel c key) fuel start

end Refinement

end MqssdModel.BPlusTree.Checking
