import TextSeek.Command.Arguments
import TextSeek.Config.Load
import TextSeek.File.IndexedFile
import TextSeek.Report.Summary

/-!
# Running a command

A command indexes a file and answers one question about it. Its outcome is an
exit code and the texts for the two output channels: code 0 with the answer,
code 1 with what failed and why, or code 2 for a command line that cannot be
understood.

**Results.**
* `run_outcome`: an answer or a complaint, as the exit code says, and never both.
-/
namespace TextSeek.Command

/-- What a command does in the end. -/
structure Outcome where
  code : Nat
  /-- The answer. -/
  output : String := ""
  /-- What failed. -/
  complaint : Option String := none
  deriving DecidableEq, Repr

/-- A failed command: what it was doing, and the cause. -/
structure Failure where
  doing : Option String := none
  cause : AccessError
  deriving DecidableEq, Repr

def Failure.message (f : Failure) : String :=
  match f.doing with
  | none => "Error: " ++ f.cause.message
  | some doing => "Error: " ++ doing ++ "\n\nCaused by:\n    " ++ f.cause.message

/-- Says what was being done when an access failed. -/
def during {α : Type} (doing : String) (outcome : Except AccessError α) : Except Failure α :=
  outcome.mapError fun cause => { doing := some doing, cause }

/-- An access whose failure speaks for itself. -/
def plainly {α : Type} (outcome : Except AccessError α) : Except Failure α :=
  outcome.mapError fun cause => { cause }

/-- The encoding of a file of which nothing is said. -/
def defaultLabel : String := "UTF-8"

/-- The bytes of a file that are looked at for a byte-order mark. -/
def markReach : Nat := 4

/-- What stands at each path. -/
abbrev Surroundings := String → Except IoError Node

/-- The configuration that the options ask for. -/
def configOf (look : Surroundings) (o : Options) (file : String) (encoding : Encoding) :
    Except Failure Config := do
  let config ←
    match o.config with
    | none => .ok {}
    | some path => during ("failed to load config " ++ path) (Config.load (look path))
  let config :=
    match o.threads with
    | none => config
    | some n => config.withWorkers n
  if o.skipBom then
    let node ← during ("cannot open " ++ file) (liftIo (look file))
    let content ← plainly (liftIo node.content)
    return config.withHeaderSkip (max config.headerSkip (encoding.markLength (content.take markReach)))
  else return config

def openFile (look : Surroundings) (o : Options) (file : String) : Except Failure IndexedFile := do
  let label := o.encoding.getD defaultLabel
  match Encoding.ofLabel? label with
  | none => throw { cause := .configuration (.unsupportedEncoding label) }
  | some encoding =>
    let config ← configOf look o file encoding
    during ("failed to index " ++ file)
      (IndexedFile.build file encoding config (look file))

def answer (look : Surroundings) (i : Invocation) : Except Failure String := do
  let f ← openFile look i.options i.file
  let source := Source.ofNode (look i.file)
  match i.action with
  | .stats json => return if json then f.summary.json ++ "\n" else f.summary.text
  | .char n =>
    let position ← during ("failed to locate character " ++ toString n)
      (f.positionOf source (.character n))
    return toString position ++ "\n"
  | .line n print =>
    let position ← during ("failed to locate line " ++ toString n) (f.positionOf source (.line n))
    if print then
      let text ← plainly (f.lineText source n)
      return toString position ++ "\t" ++ String.ofList text ++ "\n"
    else return toString position ++ "\n"
  | .seek byte =>
    let reader ← during ("failed to open reader at byte " ++ toString byte)
      (f.readerAtByte source byte f.config.readerBuffer)
    let line := reader.readLine
    match line.failure with
    | some error => plainly (.error error)
    | none => return String.ofList (IndexedFile.trimLineEnds line.text) ++ "\n"

def run (look : Surroundings) (arguments : List String) : Outcome :=
  match Invocation.parse arguments with
  | .error error => { code := 2, complaint := some ("error: " ++ error.message) }
  | .ok i =>
    match answer look i with
    | .ok output => { code := 0, output }
    | .error failure => { code := 1, complaint := some failure.message }

theorem run_outcome (look : Surroundings) (arguments : List String) :
    let outcome := run look arguments
    outcome.code = 0 ∧ outcome.complaint = none ∨
      (outcome.code = 1 ∨ outcome.code = 2) ∧ outcome.output = "" ∧ outcome.complaint ≠ none := by
  simp only [run]
  cases Invocation.parse arguments with
  | error error => exact .inr ⟨.inr rfl, rfl, nofun⟩
  | ok i =>
    simp only
    cases answer look i with
    | ok output => exact .inl ⟨rfl, rfl⟩
    | error failure => exact .inr ⟨.inl rfl, rfl, nofun⟩

def namedFiles (arguments : List String) : List String :=
  match Invocation.parse arguments with
  | .error _ => []
  | .ok i => i.file :: i.options.config.toList

end TextSeek.Command
