import MqssdModel.BPlusTree.Machine
import MqssdModel.Data.Arrays

namespace MqssdModel.BPlusTree.Dump

open Data.Arrays Machine

def maxLevel : ℕ := 10

structure NodeBacklog where
  offset : ℤ
  nextSubIdx : ℤ

/-- A call of `draw`: the node and the level it is called with, and what it prints. -/
structure Drawing where
  self : ℤ
  level : ℤ
  text : String

def nodeKeyDump (n : Node) : String :=
  if isLeaf n then
    "leaf:" ++ String.join ((front n.key n.children.toNat).map fun k ↦ " " ++ toString k) ++ "\n"
  else
    "node:" ++ String.join ((front n.key (n.children - 1).toNat).map fun k ↦ " " ++ toString k) ++ "\n"

/-- The column of the level `i`; there is one for every level above the node. -/
def column (stack : List NodeBacklog) (level : ℤ) (i : ℕ) : String :=
  if (i : ℤ) = level - 1 then "+-------"
  else
    match stack[i - 1]? with
    | some b => if b.offset ≠ invalidOffset then "|       " else "        "
    | none => "        "

def draw (n : Node) (stack : List NodeBacklog) (level : ℤ) : Drawing where
  self := n.self
  level := level
  text := String.join ((List.range (level - 1).toNat).map fun i ↦ column stack level (i + 1)) ++
    nodeKeyDump n

variable (cf : Config)

/-- The entry that is left behind where a node is passed; its next child is the one to come back
to. -/
def backlog (n : Node) (subIdx : ℤ) : NodeBacklog :=
  if isLeaf n ∨ subIdx + 1 ≥ n.children then ⟨invalidOffset, 0⟩ else ⟨n.self, subIdx + 1⟩

/-- The way down to the child `subIdx`; from a leaf there is none. -/
def down (n : Node) (c : Ptr) (subIdx : ℤ) : M (Option Ptr) :=
  if isLeaf n then pure none else do nodeSeek (← load cf subField c subIdx)

/-- The loop of `bplus_tree_dump` with room for `room` entries on the stack, the latest of which is
the first of `stack`. The fuel bounds the number of rounds. -/
def dumpLoop (room : ℕ) : ℕ → Option Ptr → Option NodeBacklog → List NodeBacklog → ℤ →
    M (List Drawing)
  | 0, _, _, _, _ => throw .fuel
  | fuel + 1, some c, nbl, stack, level => do
    let n ← node c
    let subIdx := (nbl.map NodeBacklog.nextSubIdx).getD 0
    let top := backlog n subIdx
    if stack.length ≥ room then throw .outOfBounds
    let drawn := if subIdx = 0 then [draw n (top :: stack).reverse (level + 1)] else []
    let next ← down cf n c subIdx
    let rest ← dumpLoop room fuel next none (top :: stack) (level + 1)
    return drawn ++ rest
  | _ + 1, none, _, [], _ => return []
  | fuel + 1, none, _, top :: stack, level => do
    let next ← nodeSeek top.offset
    dumpLoop room fuel next (some top) stack (level - 1)

def dumpWith (room fuel : ℕ) : M (List Drawing) := do
  let start ← nodeSeek (← get).root
  dumpLoop cf room fuel start none [] 0

def bplusTreeDump (fuel : ℕ) : M (List Drawing) := dumpWith cf maxLevel fuel

end MqssdModel.BPlusTree.Dump
