import MqssdModel.Tiering.Jobs

namespace MqssdModel.Tiering.Contents

open Picker Schedule Counting Jobs

/-- A sorted run with what the flushes it holds have written, newest first, each with its
size. -/
structure Held (α : Type*) where
  flushes : List (ℕ × α)
  job : Option ℕ

variable {α β : Type*} {o : Options} {check : OverlapCheck} {allow : List Run → ℕ → Prop}
  {history : List (ℕ × α)} {rs : List (Held α)} {job : ℕ} {st : State}

def Held.toRun (r : Held α) : Run := ⟨r.flushes.map Prod.fst, r.job⟩

def mergeHeld (inputs : List (Held α)) : Held α := ⟨inputs.flatMap Held.flushes, none⟩

/-- `register`, with the contents. -/
def registerHeld (job : ℕ) (c : Compaction) (rs : List (Held α)) : List (Held α) :=
  rs.take c.startIndex ++
    (((rs.drop c.startIndex).take c.count).map fun r ↦ { r with job := some job }) ++
    rs.drop (c.startIndex + c.count)

/-- The steps of `Schedule`, with the contents of the runs and the flushes there have been,
newest first. -/
inductive Recorded (o : Options) (check : OverlapCheck) (allow : List Run → ℕ → Prop) :
    List (ℕ × α) → List (Held α) → ℕ → Prop
  | start : Recorded o check allow [] [] 0
  | flush {history : List (ℕ × α)} {rs : List (Held α)} {job : ℕ} (x : ℕ × α) :
      Recorded o check allow history rs job → 0 < x.1 → allow (rs.map Held.toRun) x.1 →
      Recorded o check allow (x :: history) (⟨[x], none⟩ :: rs) job
  | pick {history : List (ℕ × α)} {rs : List (Held α)} {job : ℕ} {c : Compaction} :
      Recorded o check allow history rs job →
      Schedule.pick o check (rs.map Held.toRun) = some c →
      Recorded o check allow history (registerHeld job c rs) (job + 1)
  | complete {history : List (ℕ × α)} {newer inputs older : List (Held α)} {next : ℕ} (job : ℕ) :
      Recorded o check allow history (newer ++ inputs ++ older) next → inputs ≠ [] →
      (∀ r ∈ inputs, r.job = some job) → (∀ r ∈ newer ++ older, r.job ≠ some job) →
      Recorded o check allow history (newer ++ mergeHeld inputs :: older) next

theorem toRun_mergeHeld (inputs : List (Held α)) :
    (mergeHeld inputs).toRun = mergeRuns (inputs.map Held.toRun) := by
  simp only [Held.toRun, mergeHeld, mergeRuns, List.map_flatMap, List.flatMap_map]

theorem toRun_registerHeld (c : Compaction) (rs : List (Held α)) :
    (registerHeld job c rs).map Held.toRun = register job c (rs.map Held.toRun) := by
  simp only [registerHeld, register, List.map_append, List.map_map, List.map_take, List.map_drop]
  rfl

/-- Without the contents this is a run of the schedule. -/
theorem Recorded.reachable (h : Recorded o check allow history rs job) :
    Reachable o check allow ⟨rs.map Held.toRun, job⟩ := by
  induction h with
  | start => exact Relation.ReflTransGen.refl
  | flush x _ hx ha ih => exact ih.tail (Step.flush x.1 hx ha)
  | pick _ hc ih =>
    rw [toRun_registerHeld]
    exact ih.tail (Step.pick hc)
  | @complete history newer inputs older next job h hne hin hout ih =>
    rw [List.map_append, List.map_cons, toRun_mergeHeld]
    refine ih.tail (Step.complete job (by rw [List.map_append, List.map_append]) ?_ ?_ ?_)
    · simpa using hne
    · rw [List.forall_mem_map]
      exact hin
    · rw [← List.map_append, List.forall_mem_map]
      exact hout

/-- Every run of the schedule is one of these, whatever its flushes have written. -/
theorem recorded_of_reachable (hr : Reachable o check allow st) (write : ℕ → α) :
    ∃ history rs, Recorded o check allow history rs st.nextJob ∧ rs.map Held.toRun = st.runs ∧
      history.map Prod.snd = ((List.range history.length).map write).reverse := by
  induction hr with
  | refl => exact ⟨[], [], .start, rfl, rfl⟩
  | tail _ hs ih =>
    obtain ⟨history, rs, hrec, hruns, hwrite⟩ := ih
    cases hs with
    | flush x hx ha =>
      rw [← hruns] at ha
      refine ⟨(x, write history.length) :: history, _, hrec.flush _ hx ha, ?_, ?_⟩
      · rw [List.map_cons, hruns]
        rfl
      · rw [List.map_cons, hwrite, List.length_cons, List.range_succ, List.map_append,
          List.reverse_append]
        rfl
    | pick hc =>
      rw [← hruns] at hc
      exact ⟨history, _, hrec.pick hc, by rw [toRun_registerHeld, hruns], hwrite⟩
    | complete job he hne hin hout =>
      rw [he] at hruns
      obtain ⟨front, older, rfl, hfront, rfl⟩ := List.map_eq_append_iff.mp hruns
      obtain ⟨newer, inputs, rfl, rfl, rfl⟩ := List.map_eq_append_iff.mp hfront
      refine ⟨history, _, hrec.complete job ?_ ?_ ?_, ?_, hwrite⟩
      · rintro rfl
        exact hne rfl
      · exact fun r hr ↦ hin r.toRun (List.mem_map_of_mem hr)
      · intro r hr
        refine hout r.toRun ?_
        rw [← List.map_append]
        exact List.mem_map_of_mem hr
      · rw [List.map_append, List.map_cons, toRun_mergeHeld]

/-- A lookup asks the runs from newest to oldest, and in each its flushes. -/
def lookup (find : α → Option β) (rs : List (Held α)) : Option β :=
  rs.findSome? fun r ↦ r.flushes.findSome? fun x ↦ find x.2

theorem lookup_eq (find : α → Option β) (rs : List (Held α)) :
    lookup find rs = (rs.flatMap Held.flushes).findSome? fun x ↦ find x.2 := by
  induction rs with
  | nil => rfl
  | cons r rs ih =>
    rw [List.flatMap_cons, List.findSome?_append, ← ih, lookup, List.findSome?_cons]
    cases r.flushes.findSome? fun x ↦ find x.2 with
    | none => rfl
    | some b => rfl

theorem flatMap_registerHeld (c : Compaction) (rs : List (Held α)) :
    (registerHeld job c rs).flatMap Held.flushes = rs.flatMap Held.flushes := by
  rw [registerHeld, List.flatMap_append, List.flatMap_append, List.flatMap_map,
    ← List.flatMap_append, ← List.flatMap_append, ← List.drop_drop, List.append_assoc,
    List.take_append_drop, List.take_append_drop]

theorem flatMap_of_recorded (h : Recorded o check allow history rs job) :
    rs.flatMap Held.flushes = history := by
  induction h with
  | start => rfl
  | flush x _ hx ha ih => rw [List.flatMap_cons, ih, List.singleton_append]
  | pick _ hc ih => rw [flatMap_registerHeld, ih]
  | complete job _ hne hin hout ih =>
    rw [List.flatMap_append, List.flatMap_append] at ih
    rw [List.flatMap_append, List.flatMap_cons, ← ih, List.append_assoc]
    rfl

end MqssdModel.Tiering.Contents
