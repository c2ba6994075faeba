import TextSeek.Error

/-!
# Configuration of an indexing run

**Results.**
* `fault?_default`: the defaults are a valid configuration.
* `fault?_eq_none`: what a valid configuration promises.
-/
namespace TextSeek

/-- How an indexing run reads the file. -/
inductive ReadStrategy where
  /-- Piece by piece, through a file handle. -/
  | buffered
  /-- Through a memory map. -/
  | mapped
  deriving DecidableEq, Repr

/-- The settings of an indexing run. -/
structure Config where
  /-- The most character entries. -/
  maxCharEntries : Nat := 10000
  /-- The most line entries. -/
  maxLineEntries : Nat := 10000
  /-- The buffer of a reader, in bytes. -/
  readerBuffer : Nat := 2048
  /-- The code units of a partition. -/
  partitionUnits : Nat := 2500000
  /-- The bytes from which on the work on a text or partition is divided. -/
  splitThreshold : Nat := 50000
  /-- The buffer of the indexing run, in bytes. -/
  indexBuffer : Nat := 50 * 1024 * 1024
  strategy : ReadStrategy := .buffered
  /-- The bytes in front of the text that are not part of it. -/
  headerSkip : Nat := 0
  /-- The workers that share a partition; 0 leaves the choice to the machine. -/
  workers : Nat := 0
  /-- The workers that the machine chooses. No configuration text sets them. -/
  machineWorkers : Nat := 1
  deriving DecidableEq, Repr

namespace Config

/-- The first thing that is wrong (`validate`). A partition has room for two units, for
the unit that ends it may have to wait for the next one. -/
def fault? (c : Config) : Option ConfigFault :=
  if c.maxCharEntries < 1 then some .noCharacterEntries
  else if c.maxLineEntries < 1 then some .noLineEntries
  else if c.partitionUnits < 2 then some .smallPartition
  else if c.indexBuffer = 0 then some .noReadBuffer
  else none

def validate (c : Config) : Except AccessError Unit :=
  match c.fault? with
  | some fault => .error (.configuration fault)
  | none => .ok ()

theorem fault?_default : ({} : Config).fault? = none := by decide

theorem fault?_eq_none (c : Config) :
    c.fault? = none ↔
      1 ≤ c.maxCharEntries ∧ 1 ≤ c.maxLineEntries ∧ 2 ≤ c.partitionUnits ∧ 0 < c.indexBuffer := by
  simp only [fault?]
  repeat' split
  all_goals
    simp
    omega

/-- The number of workers where it is laid down. -/
def fixedWorkers? (c : Config) : Option Nat := if c.workers = 0 then none else some c.workers

def withMaxEntries (c : Config) (chars lines : Nat) : Config :=
  { c with maxCharEntries := chars, maxLineEntries := lines }

def withWorkers (c : Config) (workers : Nat) : Config := { c with workers }

def withHeaderSkip (c : Config) (headerSkip : Nat) : Config := { c with headerSkip }

end Config
end TextSeek
