import TextSeek.Index.Budget
import TextSeek.Index.Merge
import TextSeek.Index.Partition
import TextSeek.Index.Runs
import TextSeek.Stream.Source

/-!
# Building the index of a text

The text is read once. Each partition is granted entries in proportion to its
bytes, its units are scanned in one run or in several, and the reports are
merged. The number of workers changes the runs and not the index. How the share
of a partition is worked out is a parameter of `buildIndexBy`; `buildIndex` takes
`Budget.share`.

The runs of a partition are scanned one after another. Workers that scan them at
the same time are left out, and with them the error of input and output that an
indexing run ends with, before it opens its source, if the system refuses to
start them. The display of the progress and the log are left out too.

**Results.**
* `buildIndex_empty`: the index of a file with nothing behind its header.
-/
namespace TextSeek

/-- An indexing run between two partitions. -/
structure Indexing where
  draft : Draft
  charBudget : Budget
  lineBudget : Budget

/-- Scans runs of a partition one after another. -/
def ScanPlan.scanAll (plan : ScanPlan) (buffer : List UInt16) (runs : List Run) :
    Except AccessError (List Report) :=
  runs.zipIdx.mapM fun (run, number) =>
    match plan.scan? buffer run with
    | some report => .ok report
    | none =>
      .error (.worker number
        s!"range end index {run.stop} out of range for slice of length {buffer.length}")

/-- The number of workers (`effective_worker_threads`). -/
def Config.workerCount (config : Config) : Nat := config.fixedWorkers?.getD config.machineWorkers

/-- The number of runs for a partition of `bytes` bytes in a text of
`dataBytes` bytes. Small texts and small partitions are not divided. -/
def Config.runCount (config : Config) (dataBytes bytes : Nat) : Nat :=
  if 1 < config.workerCount && config.splitThreshold ≤ dataBytes && config.splitThreshold ≤ bytes
  then config.workerCount
  else 1

/-- Adds a partition to the index (`plan_partition`, `dispatch`). -/
def Indexing.addBy (rule : Budget → UInt64 → Float) (config : Config) (encoding : Encoding)
    (dataBytes : Nat) (s : Indexing) (p : Partition) : Except AccessError Indexing := do
  let (charQuota, charBudget) := s.charBudget.quotaBy rule p.bytes.toUInt64
  let (lineQuota, lineBudget) := s.lineBudget.quotaBy rule p.bytes.toUInt64
  let plan : ScanPlan :=
    { encoding
      charGrid := .ofQuota charQuota.toNat p.units.length
      lineGrid := .ofQuota lineQuota.toNat p.units.length
      startsLine := p.startsLine }
  let reports ← plan.scanAll p.units (splitRuns p.units (config.runCount dataBytes p.bytes))
  let (placement, draft) := s.draft.merge charQuota.toNat reports
  return {
    draft
    charBudget := charBudget.record charQuota placement.chars.length.toUInt64
    lineBudget := lineBudget.record lineQuota placement.lines.length.toUInt64 }

/-- The number of lines in a text with `ends` line ends whose last unit is
`last`. Text behind the last line end is a line too. -/
def countLines (ends : Nat) (last : Option UInt16) : Nat :=
  match last with
  | none => 0
  | some unit => if unit == lineFeed || unit == carriageReturn then ends else ends + 1

/-- The index of a text of the given partitions (`finish_index`). -/
def Draft.finish (draft : Draft) (dataStart : Nat) (parts : List Partition) : TextIndex where
  chars := draft.chars
  lines := draft.lines
  totalChars := draft.offsets.chars
  totalLines := countLines draft.offsets.lines (parts.getLast?.bind fun p => p.units.getLast?)
  dataStart := dataStart
  dataEnd := draft.offsets.bytes

def Indexing.start (config : Config) (dataBytes : Nat) : Indexing where
  draft := { offsets := { bytes := config.headerSkip } }
  charBudget := .start dataBytes.toUInt64 config.maxCharEntries.toUInt64
  lineBudget := .start dataBytes.toUInt64 config.maxLineEntries.toUInt64

/-- The index of a text of `dataBytes` bytes, cut into partitions. -/
def indexPartitionsBy (rule : Budget → UInt64 → Float) (config : Config) (encoding : Encoding)
    (dataBytes : Nat) (parts : List Partition) : Except AccessError TextIndex := do
  let s ← parts.foldlM (Indexing.addBy rule config encoding dataBytes) (.start config dataBytes)
  return s.draft.finish config.headerSkip parts

/-- A failure of input and output as the outcome of an access. -/
def liftIo {α : Type} (outcome : Except IoError α) : Except AccessError α :=
  outcome.mapError .io

/-- Builds the index of what `source` holds behind the header, with shares worked out by
`rule` (`create_index`). -/
def buildIndexBy (rule : Budget → UInt64 → Float) (config : Config) (encoding : Encoding)
    (source : Source) : Except AccessError TextIndex := do
  config.validate
  let size ← liftIo source.length
  if size < config.headerSkip then
    throw (.configuration (.headerBeyondEnd config.headerSkip size))
  let dataBytes := size - config.headerSkip
  if dataBytes = 0 then return .empty config.headerSkip
  let stream ← liftIo (source.openAt config.headerSkip)
  let decoder :=
    Decoder.start stream encoding config.headerSkip (min config.indexBuffer dataBytes)
  indexPartitionsBy rule config encoding dataBytes (← partitions decoder config.partitionUnits)

/-- Builds the index of what `source` holds behind the header. -/
def buildIndex (config : Config) (encoding : Encoding) (source : Source) :
    Except AccessError TextIndex :=
  buildIndexBy Budget.share config encoding source

theorem liftIo_ok {α : Type} (value : α) : liftIo (.ok value) = .ok value := rfl

theorem buildIndex_empty {config : Config} {encoding : Encoding} {source : Source}
    (hv : config.fault? = none) (hl : source.length = .ok config.headerSkip) :
    buildIndex config encoding source = .ok (.empty config.headerSkip) := by
  simp [buildIndex, buildIndexBy, Config.validate, hv, hl, liftIo_ok, bind, Except.bind, pure,
    Except.pure]

end TextSeek
