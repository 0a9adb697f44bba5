import Mathlib.Logic.Relation
import MqssdModel.Tiering.Picker

namespace MqssdModel.Tiering.Schedule

open Picker

/-- A sorted run, as the flushes it holds from newest to oldest and the running
compaction that has it as an input. -/
structure Run where
  flushes : List ℕ
  job : Option ℕ
  deriving DecidableEq, Repr

def Run.size (r : Run) : ℕ := r.flushes.sum

/-- Nothing is deleted, so the compensated size is the size. -/
def Run.toSortedRun (r : Run) : SortedRun := ⟨r.size, r.size, r.job.isSome⟩

def flushRun (x : ℕ) : Run := ⟨[x], none⟩

def mergeRuns (inputs : List Run) : Run := ⟨inputs.flatMap Run.flushes, none⟩

@[simp] theorem mergeRuns_size (inputs : List Run) :
    (mergeRuns inputs).size = (inputs.map Run.size).sum := by
  induction inputs with
  | nil => rfl
  | cons r inputs ih =>
    simp only [Run.size, mergeRuns, List.flatMap_cons, List.sum_append, List.map_cons,
      List.sum_cons] at ih ⊢
    rw [ih]

/-- The sorted runs from newest to oldest and the number of the next compaction. -/
structure State where
  runs : List Run
  nextJob : ℕ
  deriving DecidableEq, Repr

variable (o : Options) (check : OverlapCheck)

def pick (runs : List Run) : Option Compaction := pickCompaction o check (runs.map Run.toSortedRun)

/-- `RegisterCompaction`: the inputs become `being_compacted`. -/
def register (job : ℕ) (c : Compaction) (runs : List Run) : List Run :=
  runs.take c.startIndex ++
    (((runs.drop c.startIndex).take c.count).map fun r ↦ { r with job := some job }) ++
    runs.drop (c.startIndex + c.count)

/-- The inputs of `c` replaced by one run of their total size. -/
def applyCompaction (c : Compaction) (runs : List Run) : List Run :=
  runs.take c.startIndex ++ mergeRuns ((runs.drop c.startIndex).take c.count) ::
    runs.drop (c.startIndex + c.count)

/-- The three kinds of steps. `allow runs x` says whether a flush of size `x` may
complete over `runs`. -/
inductive Step (allow : List Run → ℕ → Prop) : State → State → Prop
  | flush {st : State} (x : ℕ) : 0 < x → allow st.runs x →
      Step allow st { st with runs := flushRun x :: st.runs }
  | pick {st : State} {c : Compaction} : pick o check st.runs = some c →
      Step allow st ⟨register st.nextJob c st.runs, st.nextJob + 1⟩
  | complete {st : State} {newer inputs older : List Run} (job : ℕ) :
      st.runs = newer ++ inputs ++ older → inputs ≠ [] →
      (∀ r ∈ inputs, r.job = some job) → (∀ r ∈ newer ++ older, r.job ≠ some job) →
      Step allow st { st with runs := newer ++ mergeRuns inputs :: older }

def Reachable (allow : List Run → ℕ → Prop) (st : State) : Prop :=
  Relation.ReflTransGen (Step o check allow) ⟨[], 0⟩ st

def Idle (runs : List Run) : Prop := ∀ r ∈ runs, r.job = none

variable {o check}

theorem Reachable.mono {allow allow' : List Run → ℕ → Prop}
    (h : ∀ runs x, allow runs x → allow' runs x) {st : State}
    (hr : Reachable o check allow st) : Reachable o check allow' st := by
  refine Relation.ReflTransGen.mono (fun a b hs ↦ ?_) _ _ hr
  cases hs with
  | flush x hx ha => exact .flush x hx (h _ _ ha)
  | pick hc => exact .pick hc
  | complete job he hne hin hout => exact .complete job he hne hin hout

/-- In an idle state a picked compaction may complete at once. -/
theorem Reachable.compact {allow : List Run → ℕ → Prop} {st : State} {c : Compaction}
    (hr : Reachable o check allow st) (hi : Idle st.runs)
    (hc : Schedule.pick o check st.runs = some c)
    (hw : (st.runs.drop c.startIndex).take c.count ≠ []) :
    Reachable o check allow ⟨applyCompaction c st.runs, st.nextJob + 1⟩ := by
  have hp : Reachable o check allow ⟨register st.nextJob c st.runs, st.nextJob + 1⟩ :=
    Relation.ReflTransGen.tail hr (.pick hc)
  have hm : mergeRuns (((st.runs.drop c.startIndex).take c.count).map
      fun r ↦ { r with job := some st.nextJob }) =
      mergeRuns ((st.runs.drop c.startIndex).take c.count) := by
    simp only [mergeRuns, List.flatMap_map]
  rw [Reachable, applyCompaction, ← hm]
  refine Relation.ReflTransGen.tail hp (Step.complete st.nextJob rfl (by simpa using hw) ?_ ?_)
  · intro r hr
    obtain ⟨r', -, rfl⟩ := List.mem_map.mp hr
    rfl
  · intro r hr
    have hmem : r ∈ st.runs := by
      rcases List.mem_append.mp hr with h | h
      · exact List.mem_of_mem_take h
      · exact List.mem_of_mem_drop h
    simp [hi r hmem]

end MqssdModel.Tiering.Schedule
