import TextSeek.Config.Json
import TextSeek.Stream.Source

/-!
# Reading a configuration

A configuration is a JSON object whose members are settings; settings that are
missing take their defaults and members with other names are passed over. The
settings may also stand in an array, in their own order. A setting that is
given twice, or that is not a natural number below 2^64 where it has to be one,
makes the whole text unreadable.

**Results.**
* `parse_valid`: what is read is valid.
-/
namespace TextSeek.Config

def natural? : Json → Option Nat
  | .natural n => if n < UInt64.size then some n else none
  | _ => none

def strategyOfName? (name : String) : Option ReadStrategy :=
  [("buffered", ReadStrategy.buffered), ("mmap", ReadStrategy.mapped)].lookup name

/-- A way of reading: its name, or an object with the name and nothing in it. -/
def strategy? : Json → Option ReadStrategy
  | .string (some name) => strategyOfName? name
  | .object [(some name, .null)] => strategyOfName? name
  | _ => none

structure Setting where
  name : String
  set? : Config → Json → Option Config

def settings : List Setting :=
  [⟨"maxCharIndexEntries", fun c v => (natural? v).map fun n => { c with maxCharEntries := n }⟩,
   ⟨"maxLineIndexEntries", fun c v => (natural? v).map fun n => { c with maxLineEntries := n }⟩,
   ⟨"childReaderBufferSize", fun c v => (natural? v).map fun n => { c with readerBuffer := n }⟩,
   ⟨"charBufferSize", fun c v => (natural? v).map fun n => { c with partitionUnits := n }⟩,
   ⟨"multiThreadingThreshold", fun c v =>
     (natural? v).map fun n => { c with splitThreshold := n }⟩,
   ⟨"indexerReadBufferSize", fun c v => (natural? v).map fun n => { c with indexBuffer := n }⟩,
   ⟨"readStrategy", fun c v => (strategy? v).map fun s => { c with strategy := s }⟩,
   ⟨"headerSkipBytes", fun c v => (natural? v).map fun n => { c with headerSkip := n }⟩,
   ⟨"workerThreads", fun c v => (natural? v).map fun n => { c with workers := n }⟩]

/-- Applies the members of an object; `seen` are the settings given before. -/
def applyMembers (c : Config) (seen : List String) : List (Option String × Json) → Option Config
  | [] => some c
  | (none, _) :: _ => none
  | (some name, value) :: rest =>
    match settings.find? (·.name == name) with
    | none => applyMembers c seen rest
    | some setting =>
      if seen.contains name then none
      else do applyMembers (← setting.set? c value) (name :: seen) rest

/-- Applies values to settings in order; there must not be more values. -/
def applyItems (c : Config) : List Setting → List Json → Option Config
  | _, [] => some c
  | [], _ :: _ => none
  | setting :: settings, value :: rest => do
    applyItems (← setting.set? c value) settings rest

def ofJson? : Json → Option Config
  | .object members => applyMembers {} [] members
  | .array items => applyItems {} settings items
  | _ => none

/-- Reads a configuration and refuses one with a fault (`from_json`). -/
def parse (text : String) : Except AccessError Config :=
  match (Json.parse? text).bind ofJson? with
  | none => .error (.configuration .unreadable)
  | some config => config.validate.map fun _ => config

theorem parse_valid {text : String} {config : Config} (h : parse text = .ok config) :
    config.fault? = none := by
  unfold parse at h
  split at h
  · cases h
  · next c hc =>
    cases hf : c.fault? with
    | none =>
      simp only [validate, hf, Except.map] at h
      cases h
      exact hf
    | some fault => simp [validate, hf, Except.map] at h

/-- Reads a configuration from what has been found at a path. -/
def load (found : Except IoError Node) : Except AccessError Config :=
  match found.bind Node.content with
  | .error error => .error (.io error)
  | .ok content =>
    match String.fromUTF8? content.toByteArray with
    | none => .error (.io .notUtf8)
    | some text => parse text

end TextSeek.Config
