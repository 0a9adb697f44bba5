import Mathlib

namespace MqssdModel.Tiering.Picker

/-- `CompactionStopStyle` of `universal_compaction.h`. -/
inductive StopStyle
  | similarSize
  | totalSize
  deriving DecidableEq, Repr

inductive CompactionReason
  | universalSizeAmplification
  | universalSizeRatio
  | universalSortedRunNum
  deriving DecidableEq, Repr

/-- The sorted run of `UniversalCompactionBuilder`, with the fields the picker compares. -/
structure SortedRun where
  size : ℕ
  compensatedFileSize : ℕ
  beingCompacted : Bool
  deriving DecidableEq, Repr

/-- The column family options read by the picker and by the write controller. Signed
fields of the source are integers, unsigned ones naturals. -/
structure Options where
  level0FileNumCompactionTrigger : ℤ
  level0SlowdownWritesTrigger : ℤ
  level0StopWritesTrigger : ℤ
  disableAutoCompactions : Bool
  maxWriteBufferNumber : ℤ
  minWriteBufferNumberToMerge : ℤ
  softPendingCompactionBytesLimit : ℕ
  hardPendingCompactionBytesLimit : ℕ
  sizeRatio : ℕ
  minMergeWidth : ℕ
  maxMergeWidth : ℕ
  maxSizeAmplificationPercent : ℕ
  stopStyle : StopStyle
  deriving DecidableEq, Repr

/-- A picked compaction: the runs `startIndex, …, startIndex + count - 1`, newest first. -/
structure Compaction where
  startIndex : ℕ
  count : ℕ
  reason : CompactionReason
  deriving DecidableEq, Repr

/-- `FilesRangeOverlapWithCompaction` compares key ranges with the compactions in
progress, so it rejects nothing while no run is being compacted. -/
structure OverlapCheck where
  overlaps : List SortedRun → ℕ → ℕ → Bool
  idle : ∀ runs start count, (∀ r ∈ runs, r.beingCompacted = false) →
    overlaps runs start count = false

/-- The succeeding-runs loop of `PickCompactionToReduceSortedRuns`: how many candidates
stand when it stops. The comparison of `double`s is made in exact arithmetic. -/
def countCandidates (o : Options) (ratio maxFilesToCompact : ℕ) :
    ℕ → ℕ → List SortedRun → ℕ
  | candidateCount, _, [] => candidateCount
  | candidateCount, candidateSize, sr :: rest =>
    if candidateCount < maxFilesToCompact then
      if sr.beingCompacted then candidateCount
      else if candidateSize * (100 + ratio) < 100 * sr.size then candidateCount
      else
        match o.stopStyle with
        | .similarSize =>
          if sr.size * (100 + ratio) < 100 * candidateSize then candidateCount
          else countCandidates o ratio maxFilesToCompact (candidateCount + 1)
            sr.compensatedFileSize rest
        | .totalSize =>
          countCandidates o ratio maxFilesToCompact (candidateCount + 1)
            (candidateSize + sr.compensatedFileSize) rest
    else candidateCount

/-- The outer loop of `PickCompactionToReduceSortedRuns`: the first start index whose
candidates reach `minMergeWidth`. Runs being compacted are skipped as starts. -/
def findCandidates (o : Options) (ratio maxFilesToCompact minMergeWidth : ℕ) :
    ℕ → List SortedRun → Option (ℕ × ℕ)
  | _, [] => none
  | loop, sr :: rest =>
    if sr.beingCompacted then
      findCandidates o ratio maxFilesToCompact minMergeWidth (loop + 1) rest
    else
      let candidateCount := countCandidates o ratio maxFilesToCompact 1
        sr.compensatedFileSize rest
      if minMergeWidth ≤ candidateCount then some (loop, candidateCount)
      else findCandidates o ratio maxFilesToCompact minMergeWidth (loop + 1) rest

/-- `none` for `maxNumberOfFilesToCompact` is the source's `UINT_MAX`. -/
def pickCompactionToReduceSortedRuns (o : Options) (check : OverlapCheck) (ratio : ℕ)
    (maxNumberOfFilesToCompact : Option ℕ) (runs : List SortedRun) : Option Compaction :=
  let maxFilesToCompact := match maxNumberOfFilesToCompact with
    | none => o.maxMergeWidth
    | some n => min o.maxMergeWidth n
  let minMergeWidth := max o.minMergeWidth 2
  match findCandidates o ratio maxFilesToCompact minMergeWidth 0 runs with
  | none => none
  | some (startIndex, candidateCount) =>
    if candidateCount ≤ 1 then none
    else if check.overlaps runs startIndex candidateCount then none
    else
      some ⟨startIndex, candidateCount, match maxNumberOfFilesToCompact with
        | none => .universalSizeRatio
        | some _ => .universalSortedRunNum⟩

def pickCompactionWithSortedRunRange (check : OverlapCheck) (runs : List SortedRun)
    (startIndex endIndex : ℕ) (reason : CompactionReason) : Option Compaction :=
  if check.overlaps runs startIndex (endIndex + 1 - startIndex) then none
  else some ⟨startIndex, endIndex + 1 - startIndex, reason⟩

def pickCompactionToReduceSizeAmp (o : Options) (check : OverlapCheck)
    (runs : List SortedRun) : Option Compaction :=
  match runs.getLast? with
  | none => none
  | some base =>
    if base.beingCompacted then none
    else
      let startIndex := (runs.dropLast.takeWhile (·.beingCompacted)).length
      let candidates := runs.dropLast.drop startIndex
      if candidates = [] then none
      else if candidates.any (·.beingCompacted) then none
      else if (candidates.map (·.compensatedFileSize)).sum * 100 <
          o.maxSizeAmplificationPercent * base.size then none
      else pickCompactionWithSortedRunRange check runs startIndex (runs.length - 1)
        .universalSizeAmplification

/-- `UniversalCompactionBuilder::PickCompaction` when no file is marked for periodic or
delete-triggered compaction. The step that forced the number of runs below the trigger
is commented out in the source, so after the size-ratio attempt nothing is left. -/
def pickCompaction (o : Options) (check : OverlapCheck) (runs : List SortedRun) :
    Option Compaction :=
  if runs.length = 0 ∨ (runs.length : ℤ) < o.level0FileNumCompactionTrigger then none
  else
    match pickCompactionToReduceSizeAmp o check runs with
    | some c => some c
    | none => pickCompactionToReduceSortedRuns o check o.sizeRatio none runs

/-- The part of `SanitizeOptions` that orders the three level-0 triggers. -/
def sanitizeOptions (src : Options) : Options :=
  let trigger := if src.level0FileNumCompactionTrigger = 0 then 1
    else src.level0FileNumCompactionTrigger
  let unordered := src.level0StopWritesTrigger < src.level0SlowdownWritesTrigger ∨
    src.level0SlowdownWritesTrigger < trigger
  let slowdown := if unordered ∧ src.level0SlowdownWritesTrigger < trigger then trigger
    else src.level0SlowdownWritesTrigger
  let stop := if unordered ∧ src.level0StopWritesTrigger < slowdown then slowdown
    else src.level0StopWritesTrigger
  { src with
    level0FileNumCompactionTrigger := trigger
    level0SlowdownWritesTrigger := slowdown
    level0StopWritesTrigger := stop }

/-- The universal branch of `main` in `mqssd.cc`; what it does not set keeps the default
of `options.h`, `advanced_options.h` and `universal_compaction.h`. -/
def universalOptions (fanout : ℕ) : Options where
  level0FileNumCompactionTrigger := fanout
  level0SlowdownWritesTrigger := 20
  level0StopWritesTrigger := 36
  disableAutoCompactions := false
  maxWriteBufferNumber := 2
  minWriteBufferNumberToMerge := 1
  softPendingCompactionBytesLimit := 64 * 1073741824
  hardPendingCompactionBytesLimit := 256 * 1073741824
  sizeRatio := 1
  minMergeWidth := fanout
  maxMergeWidth := fanout
  maxSizeAmplificationPercent := 100 * ((fanout - 1) + fanout / (fanout - 1))
  stopStyle := .totalSize

def mqssdOptions (fanout : ℕ) : Options := sanitizeOptions (universalOptions fanout)

inductive WriteStallCondition
  | delayed
  | stopped
  | normal
  deriving DecidableEq, Repr

inductive WriteStallCause
  | memtableLimit
  | l0FileCountLimit
  | pendingCompactionBytes
  | none
  deriving DecidableEq, Repr

/-- For universal compaction `numL0Files` is the number of sorted runs
(`CalculateBaseBytes`). -/
def getWriteStallConditionAndCause (numUnflushedMemtables numL0Files : ℤ)
    (numCompactionNeededBytes : ℕ) (o : Options) : WriteStallCondition × WriteStallCause :=
  if numUnflushedMemtables ≥ o.maxWriteBufferNumber then (.stopped, .memtableLimit)
  else if ¬ o.disableAutoCompactions ∧ numL0Files ≥ o.level0StopWritesTrigger then
    (.stopped, .l0FileCountLimit)
  else if ¬ o.disableAutoCompactions ∧ o.hardPendingCompactionBytesLimit > 0 ∧
      numCompactionNeededBytes ≥ o.hardPendingCompactionBytesLimit then
    (.stopped, .pendingCompactionBytes)
  else if o.maxWriteBufferNumber > 3 ∧ numUnflushedMemtables ≥ o.maxWriteBufferNumber - 1 ∧
      numUnflushedMemtables - 1 ≥ o.minWriteBufferNumberToMerge then
    (.delayed, .memtableLimit)
  else if ¬ o.disableAutoCompactions ∧ o.level0SlowdownWritesTrigger ≥ 0 ∧
      numL0Files ≥ o.level0SlowdownWritesTrigger then
    (.delayed, .l0FileCountLimit)
  else if ¬ o.disableAutoCompactions ∧ o.softPendingCompactionBytesLimit > 0 ∧
      numCompactionNeededBytes ≥ o.softPendingCompactionBytesLimit then
    (.delayed, .pendingCompactionBytes)
  else (.normal, .none)

end MqssdModel.Tiering.Picker
