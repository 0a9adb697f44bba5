import Mathlib.Data.Finset.Insert
import Mathlib.Data.Finset.Erase
import MqssdModel.Data.OrderedDict

namespace MqssdModel.Trace.Analyser

open Data.OrderedDict

inductive Event
  | issued
  | completed
  | other
  deriving DecidableEq

abbrev Request := ℤ × ℤ

/-- The tokens of a trace line that the script reads. -/
structure Record where
  time : String
  pid : ℤ
  event : Event
  rw : List Char
  startAddr : ℤ
  offset : ℤ
  name : String

inductive Line
  | cpu
  | blank
  | kworker
  | record (r : Record)

inductive Abort
  | exit
  | assertionError
  | keyError
  | indexError
  deriving DecidableEq

structure State where
  numIos : ℤ
  samples : List (String × ℤ)
  vid : ℕ
  pids : Dict ℤ ℕ
  reqs : Dict Request (ℕ × ℕ)
  ios : List (List (Finset Request))
  lastAddr : List (Dict ℤ ℕ)

def start : State := ⟨0, [], 0, .empty, .empty, [], []⟩

namespace Record

def write (r : Record) : Bool := 'W' ∈ r.rw

def read (r : Record) : Bool := 'R' ∈ r.rw

def request (r : Record) : Request := (r.startAddr, r.offset)

def ignored (r : Record) : Bool := !(xor r.write r.read) || r.startAddr = 0

end Record

def item {α : Type*} (xs : List α) (i : ℕ) : Except Abort α :=
  match xs[i]? with
  | some x => .ok x
  | none => .error .indexError

def key {κ ν : Type*} [DecidableEq κ] (d : Dict κ ν) (k : κ) : Except Abort ν :=
  match d.get? k with
  | some v => .ok v
  | none => .error .keyError

def addPid (st : State) (pid : ℤ) : State :=
  if (st.pids.get? pid).isSome then st
  else
    { st with
      pids := st.pids.set pid st.vid
      vid := st.vid + 1
      ios := st.ios ++ [[], []]
      lastAddr := st.lastAddr ++ [.empty, .empty] }

/-- A new IO for the thread and direction `idx`, unless one of them ends at the address. -/
def newIo (st : State) (idx : ℕ) (r : Record) : Except Abort State := do
  let last ← item st.lastAddr idx
  if (last.get? r.startAddr).isSome then return st
  let sets ← item st.ios idx
  return { st with
    numIos := st.numIos + 1
    samples := st.samples ++ [(r.time, st.numIos + 1)]
    lastAddr := st.lastAddr.set idx (last.set r.startAddr sets.length)
    ios := st.ios.set idx (sets ++ [∅]) }

def addRequest (st : State) (idx : ℕ) (r : Record) : Except Abort State := do
  let last ← item st.lastAddr idx
  let subIdx ← key last r.startAddr
  let sets ← item st.ios idx
  let requests ← item sets subIdx
  if r.request ∈ requests then throw .assertionError
  return { st with
    ios := st.ios.set idx (sets.set subIdx (insert r.request requests))
    lastAddr := st.lastAddr.set idx
      ((last.erase r.startAddr).set (r.startAddr + r.offset) subIdx)
    reqs := st.reqs.set r.request (idx, subIdx) }

def issue (st : State) (r : Record) : Except Abort State := do
  let st := addPid st r.pid
  let thread ← key st.pids r.pid
  let idx := thread * 2 + if r.write then 1 else 0
  let st ← newIo st idx r
  addRequest st idx r

def complete (st : State) (r : Record) : Except Abort State :=
  match st.reqs.get? r.request with
  | none => return st
  | some (idx, subIdx) => do
    if !(r.read && idx % 2 = 0 || r.write && idx % 2 = 1) then throw .exit
    let sets ← item st.ios idx
    let requests ← item sets subIdx
    if r.request ∉ requests then throw .keyError
    let left := requests.erase r.request
    let st := { st with
      ios := st.ios.set idx (sets.set subIdx left)
      reqs := st.reqs.erase r.request }
    if left = ∅ then
      let last ← item st.lastAddr idx
      return { st with
        numIos := st.numIos - 1
        samples := st.samples ++ [(r.time, st.numIos - 1)]
        lastAddr := st.lastAddr.set idx (last.eraseValue subIdx) }
    else return st

variable (follows : String → Bool)

def handle (st : State) (r : Record) : Except Abort State :=
  match r.event with
  | .issued => if follows r.name then issue st r else return st
  | .completed => complete st r
  | .other => return st

def analyse (st : State) : List Line → Except Abort State
  | [] => return st
  | .cpu :: _ => return st
  | .blank :: lines => analyse st lines
  | .kworker :: lines => analyse st lines
  | .record r :: lines => do
    if r.ignored then analyse st lines
    else
      let st ← handle follows st r
      analyse st lines

def parseTrace (lines : List Line) : Except Abort State := analyse (fun _ ↦ true) start lines

def parseLog (lines : List Line) : Except Abort State :=
  analyse (fun name ↦ name = "[rocksdb:high]" || name = "[rocksdb:low]") start
    (lines.take 20000000)

/-- The lines that get as far as the test of their event. -/
def tracked : List Line → List Record
  | [] => []
  | .cpu :: _ => []
  | .blank :: lines => tracked lines
  | .kworker :: lines => tracked lines
  | .record r :: lines => if r.ignored then tracked lines else r :: tracked lines

theorem bind_eq_ok {ε α β : Type} {x : Except ε α} {f : α → Except ε β} {b : β} :
    (x >>= f) = .ok b ↔ ∃ a, x = .ok a ∧ f a = .ok b := by
  cases x with
  | error e => simp [bind, Except.bind]
  | ok a => simp [bind, Except.bind]

theorem analyse_eq (st : State) (lines : List Line) :
    analyse follows st lines = (tracked lines).foldlM (handle follows) st := by
  induction lines generalizing st with
  | nil => rfl
  | cons l lines ih =>
    cases l with
    | cpu => rfl
    | blank => exact ih st
    | kworker => exact ih st
    | record r =>
      rw [analyse, tracked]
      by_cases h : r.ignored = true
      · rw [if_pos h, if_pos h]
        exact ih st
      · rw [if_neg h, if_neg h, List.foldlM_cons]
        exact bind_congr fun st' ↦ ih st'

theorem not_ignored_of_mem {lines : List Line} {r : Record} (h : r ∈ tracked lines) :
    r.ignored = false := by
  induction lines with
  | nil => simp [tracked] at h
  | cons l lines ih =>
    cases l with
    | cpu => simp [tracked] at h
    | blank => exact ih h
    | kworker => exact ih h
    | record r' =>
      rw [tracked] at h
      split_ifs at h with hr
      · exact ih h
      · rcases List.mem_cons.mp h with rfl | h
        · simpa using hr
        · exact ih h

theorem read_of_not_ignored {r : Record} (h : r.ignored = false) : r.read = !r.write := by
  unfold Record.ignored at h
  cases hr : r.read with
  | false => cases hw : r.write with
    | false => simp [hr, hw] at h
    | true => rfl
  | true => cases hw : r.write with
    | false => rfl
    | true => simp [hr, hw] at h

end MqssdModel.Trace.Analyser
