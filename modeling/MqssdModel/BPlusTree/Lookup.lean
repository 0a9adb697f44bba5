import MqssdModel.BPlusTree.Boot
import MqssdModel.BPlusTree.Insertion

namespace MqssdModel.BPlusTree.Lookup

open Machine Insertion Boot

/-- How the arrays of a leaf are read. -/
structure Reads where
  key : Ptr → ℤ → M ℤ
  data : Ptr → ℤ → M ℤ

/-- What lies in memory behind the arrays of a leaf, by index. -/
structure Behind where
  key : ℤ → ℤ
  data : ℤ → ℤ

def peek (cf : Config) (f : Field) (behind : ℤ → ℤ) (c : Ptr) (i : ℤ) : M ℤ := do
  let n ← node c
  return if 0 ≤ i ∧ i < f.cap cf n then f.get n i else behind i

/-- The reads of the source, which checks no index. -/
def plain (cf : Config) (behind : Behind) : Reads where
  key := peek cf keyField behind.key
  data := peek cf dataField behind.data

def entry (f : Field) (c : Ptr) (i : ℤ) : M ℤ := do
  let n ← node c
  if 0 ≤ i ∧ i < n.children then return f.get n i else throw .outOfBounds

/-- Reads that fail at an index that is not one of an entry of the leaf. -/
def strict : Reads where
  key := entry keyField
  data := entry dataField

variable (cf : Config)

/-- The `int` that `bplus_tree_search` keeps the value in. -/
def searchLeaf (key : ℤ) (leaf : Ptr) : M ℤ := do
  let i := keyBinarySearch (← node leaf) key
  if i ≥ 0 then return wrap 32 (← load cf dataField leaf i) else return -1

def bplusTreeSearch (fuel : ℕ) (key : ℤ) : M ℤ := do
  let start ← nodeSeek (← get).root
  descend cf key (searchLeaf cf key) (pure (-1)) fuel start

def bplusTreeGet (fuel : ℕ) (key : ℤ) : M ℤ := bplusTreeSearch cf fuel key

/-- The inner loop of `bplus_tree_get_range`. -/
def scan (read : Reads) (max : ℤ) : ℕ → Option Ptr → ℤ → ℤ → M ℤ
  | _, none, _, start => return start
  | 0, some _, _, _ => throw .fuel
  | fuel + 1, some c, i, start => do
    if (← read.key c i) ≤ max then
      let start ← read.data c i
      let n ← node c
      if i + 1 ≥ n.children then scan read max fuel (← nodeSeek n.next) 0 start
      else scan read max fuel (some c) (i + 1) start
    else return start

/-- Where the smaller key is not below a key of the leaf, the scan starts in the next leaf, with
the index that was found in this one. -/
def scanFrom (read : Reads) (fuel : ℕ) (min max : ℤ) (leaf : Ptr) : M ℤ := do
  let n ← node leaf
  let i := keyBinarySearch n min
  if i < 0 then
    if -i - 1 ≥ n.children then scan read max fuel (← nodeSeek n.next) (-i - 1) (-1)
    else scan read max fuel (some leaf) (-i - 1) (-1)
  else scan read max fuel (some leaf) i (-1)

def bplusTreeGetRange (read : Reads) (fuel : ℕ) (key1 key2 : ℤ) : M ℤ := do
  let min := if key1 ≤ key2 then key1 else key2
  let max := if min = key1 then key2 else key1
  let start ← nodeSeek (← get).root
  descend cf min (scanFrom read fuel min max) (pure (-1)) fuel start

end MqssdModel.BPlusTree.Lookup
