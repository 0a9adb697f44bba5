import MqssdModel.BPlusTree.History
import MqssdModel.Data.Forcing

namespace MqssdModel.BPlusTree.Evaluation

open Data.Forcing Machine Removal History

variable {α : Type}

def forceType (k : NodeType) (f : NodeType → α) : α :=
  match k with
  | .leaf => f .leaf
  | .nonLeaf => f .nonLeaf

def forceBool (b : Bool) (f : Bool → α) : α :=
  match b with
  | true => f true
  | false => f false

/-- A node with its fields and the elements of its arrays up to `size` evaluated. -/
def forceNode (size : ℕ) (n : Node) (f : Node → α) : α :=
  forceInt n.self fun self ↦ forceInt n.parent fun parent ↦ forceInt n.prev fun prev ↦
  forceInt n.next fun next ↦ forceType n.type fun type ↦ forceInt n.children fun children ↦
  forceArray n.key size fun key ↦ forceArray n.data size fun data ↦
  forceArray n.sub size fun sub ↦ f ⟨self, parent, prev, next, type, children, key, data, sub⟩

def forceBlock (size : ℕ) (b : Option Node) (f : Option Node → α) : α :=
  match b with
  | none => f none
  | some n => forceNode size n fun n ↦ f (some n)

def forceOffsets : List ℤ → (List ℤ → α) → α
  | [], f => f []
  | o :: os, f => forceInt o fun o ↦ forceOffsets os fun os ↦ f (o :: os)

/-- A tree with everything evaluated but the blocks that are not among those at `offsets`. -/
def forceTree (size : ℕ) (offsets : List ℤ) (t : Tree) (f : Tree → α) : α :=
  forceAt (forceNode size) t.caches (List.finRange 5) fun caches ↦
  forceAt forceBool t.used (List.finRange 5) fun used ↦
  forceAt forceNat t.turns (List.finRange 5) fun turns ↦
  forceInt t.level fun level ↦ forceInt t.root fun root ↦ forceInt t.fileSize fun fileSize ↦
  forceOffsets t.freeBlocks fun freeBlocks ↦
  forceAt (forceBlock size) t.file offsets fun file ↦
    f ⟨caches, used, turns, level, root, fileSize, freeBlocks, file⟩

theorem forceNode_eq (size : ℕ) (n : Node) (f : Node → α) : forceNode size n f = f n := by
  have htype : ∀ (k : NodeType) (f : NodeType → α), forceType k f = f k := by
    intro k f
    cases k <;> rfl
  simp only [forceNode, forceInt_eq, forceArray_eq, htype]

theorem forceTree_eq (size : ℕ) (offsets : List ℤ) (t : Tree) (f : Tree → α) :
    forceTree size offsets t f = f t := by
  have hbool : ∀ (b : Bool) (f : Bool → α), forceBool b f = f b := by
    intro b f
    cases b <;> rfl
  have hblock : ∀ (b : Option Node) (f : Option Node → α), forceBlock size b f = f b := by
    intro b f
    cases b with
    | none => rfl
    | some n => exact forceNode_eq size n fun n ↦ f (some n)
  have hoffsets : ∀ (os : List ℤ) (f : List ℤ → α), forceOffsets os f = f os := by
    intro os
    induction os with
    | nil => exact fun f ↦ rfl
    | cons o os ih => exact fun f ↦ by rw [forceOffsets, forceInt_eq, ih]
  rw [forceTree, forceAt_eq (forceNode_eq size), forceAt_eq hbool, forceAt_eq forceNat_eq,
    forceInt_eq, forceInt_eq, forceInt_eq, hoffsets, forceAt_eq hblock]

/-- The calls with everything evaluated before each of them. -/
def putsForced (cf : Config) (fuel size : ℕ) (offsets : List ℤ) : List (ℤ × ℤ) → M (List ℤ)
  | [] => fun t ↦ forceTree size offsets t fun t ↦ .ok ([], t)
  | (k, v) :: ops => fun t ↦ forceTree size offsets t (do
      let x ← bplusTreePut cf fuel k v
      let xs ← putsForced cf fuel size offsets ops
      return x :: xs : M (List ℤ))

theorem putsForced_eq (cf : Config) (fuel size : ℕ) (offsets : List ℤ) (ops : List (ℤ × ℤ)) :
    putsForced cf fuel size offsets ops = puts cf fuel ops := by
  induction ops with
  | nil =>
    funext t
    rw [putsForced]
    exact forceTree_eq size offsets t _
  | cons op ops ih =>
    funext t
    rw [putsForced, ih]
    exact forceTree_eq size offsets t _

end MqssdModel.BPlusTree.Evaluation
