/-!
# Command-line arguments

A command line has general options, the name of a subcommand, and the
subcommand's operands and options; the general options may also stand behind
the name, and what stands there counts. Options have a long form, some a short
one; short ones can be joined. A value stands behind its option as the next
argument or in the same one. After `--` there are only operands.

**Results.**
* `parseNumber?_lt`: a number that is read is a word.
* `Options.layOver_self`: a level laid over itself is itself.
-/
namespace TextSeek.Command

/-- What is wrong with a command line. -/
inductive UsageError where
  /-- An option, operand or value that is not expected there. -/
  | unexpected (argument : String)
  | missingValue (option : String)
  | repeated (option : String)
  | invalidValue (text : String)
  | missingOperand (name : String)
  deriving DecidableEq, Repr

def UsageError.message : UsageError → String
  | unexpected argument => "unexpected argument '" ++ argument ++ "'"
  | missingValue option => "a value is required for '--" ++ option ++ "'"
  | repeated option => "the argument '--" ++ option ++ "' cannot be used multiple times"
  | invalidValue text => "invalid value '" ++ text ++ "'"
  | missingOperand name => "the required argument <" ++ name ++ "> was not provided"

/-! ## Options -/

inductive OptionKey where
  | encoding
  | config
  | threads
  | skipBom
  | verbose
  | json
  | print
  deriving DecidableEq, Repr

namespace OptionKey

/-- The long form without its hyphens. -/
def long : OptionKey → String
  | encoding => "encoding"
  | config => "config"
  | threads => "threads"
  | skipBom => "skip-bom"
  | verbose => "verbose"
  | json => "json"
  | print => "print"

/-- The letter of the short form. -/
def short? : OptionKey → Option Char
  | encoding => some 'e'
  | config => some 'c'
  | threads => some 't'
  | verbose => some 'v'
  | print => some 'p'
  | skipBom | json => none

/-- A value belongs to the option. -/
def takesValue : OptionKey → Bool
  | encoding | config | threads => true
  | skipBom | verbose | json | print => false

/-- The options that any subcommand has. -/
def general : List OptionKey := [encoding, config, threads, skipBom, verbose]

end OptionKey

structure Given where
  key : OptionKey
  value : String := ""
  deriving DecidableEq, Repr

/-- An argument that cannot be the value of the option before it. -/
def looksLikeOption (argument : String) : Bool :=
  argument.startsWith "-" && argument != "-"

def takeValue (key : OptionKey) : List String → Except UsageError (Given × List String)
  | [] => .error (.missingValue key.long)
  | argument :: rest =>
    if looksLikeOption argument then .error (.missingValue key.long)
    else .ok (⟨key, argument⟩, rest)

/-- Reads an option in its long form, without the hyphens. -/
def readLong (allowed : List OptionKey) (body : List Char) (rest : List String) :
    Except UsageError (Given × List String) :=
  let (name, value) := body.span (· != '=')
  match allowed.find? (·.long == String.ofList name) with
  | none => .error (.unexpected (String.ofList body))
  | some key =>
    match value with
    | [] => if key.takesValue then takeValue key rest else .ok (⟨key, ""⟩, rest)
    | _ :: text =>
      if key.takesValue then .ok (⟨key, String.ofList text⟩, rest)
      else .error (.unexpected (String.ofList text))

/-- Reads joined options in their short forms, without the hyphen. -/
def readShort (allowed : List OptionKey) (body : List Char) (rest : List String) :
    Except UsageError (List Given × List String) :=
  match body with
  | [] => .ok ([], rest)
  | letter :: more =>
    match allowed.find? (·.short? == some letter) with
    | none => .error (.unexpected (String.ofList body))
    | some key =>
      if key.takesValue then
        match more with
        | [] => (takeValue key rest).map fun (given, rest) => ([given], rest)
        | '=' :: text => .ok ([⟨key, String.ofList text⟩], rest)
        | text => .ok ([⟨key, String.ofList text⟩], rest)
      else (readShort allowed more rest).map fun (given, rest) => (⟨key, ""⟩ :: given, rest)

structure Level where
  /-- The options in order. -/
  given : List Given := []
  /-- The operands in order. -/
  operands : List String := []
  /-- What stands behind the operand that ends the level. -/
  rest : List String := []
  deriving DecidableEq, Repr

/-- Adds options to a level; none may be there twice. -/
def Level.add (level : Level) : List Given → Except UsageError Level
  | [] => .ok level
  | g :: more =>
    if level.given.any (·.key == g.key) then .error (.repeated g.key.long)
    else { level with given := level.given ++ [g] }.add more

/-- Reads a level. The general level (`ends`) stops behind its first operand,
which names the subcommand and must not stand behind `--`. Every argument uses
up one unit of `fuel`. -/
def readLevel (ends : Bool) (allowed : List OptionKey) (level : Level) (fuel : Nat)
    (arguments : List String) : Except UsageError Level :=
  match fuel, arguments with
  | 0, _ => .ok level
  | _, [] => .ok level
  | fuel + 1, argument :: rest =>
    match argument.toList with
    | ['-', '-'] =>
      if ends then
        match rest with
        | [] => .ok level
        | operand :: _ => .error (.unexpected operand)
      else .ok { level with operands := level.operands ++ rest }
    | '-' :: '-' :: body => do
      let (given, rest) ← readLong allowed body rest
      readLevel ends allowed (← level.add [given]) fuel rest
    | '-' :: letter :: body => do
      let (given, rest) ← readShort allowed (letter :: body) rest
      readLevel ends allowed (← level.add given) fuel rest
    | _ =>
      let level := { level with operands := level.operands ++ [argument] }
      if ends then .ok { level with rest } else readLevel ends allowed level fuel rest

/-! ## Values -/

/-- A natural number below 2^64, with or without a plus sign. -/
def parseNumber? (text : String) : Option Nat :=
  let ds :=
    match text.toList with
    | '+' :: ds => ds
    | ds => ds
  if ds.isEmpty || ds.any (!·.isDigit) then none
  else
    let n := ds.foldl (fun n d => n * 10 + (d.toNat - '0'.toNat)) 0
    if n < UInt64.size then some n else none

theorem parseNumber?_lt {text : String} {n : Nat} (h : parseNumber? text = some n) :
    n < UInt64.size := by
  simp only [parseNumber?, Option.ite_none_left_eq_some, Option.ite_none_right_eq_some,
    Option.some.injEq] at h
  obtain ⟨-, hlt, rfl⟩ := h
  exact hlt

example : parseNumber? "+007" = some 7 := by decide

def readNumber (text : String) : Except UsageError Nat :=
  match parseNumber? text with
  | some n => .ok n
  | none => .error (.invalidValue text)

/-- A path; it must not be empty. -/
def readPath (text : String) : Except UsageError String :=
  if text.isEmpty then .error (.invalidValue text) else .ok text

structure Options where
  encoding : Option String := none
  config : Option String := none
  threads : Option Nat := none
  skipBom : Bool := false
  verbose : Bool := false
  deriving DecidableEq, Repr

namespace Options

def add (o : Options) (g : Given) : Except UsageError Options :=
  match g.key with
  | .encoding => .ok { o with encoding := some g.value }
  | .config => (readPath g.value).map fun path => { o with config := some path }
  | .threads => (readNumber g.value).map fun n => { o with threads := some n }
  | .skipBom => .ok { o with skipBom := true }
  | .verbose => .ok { o with verbose := true }
  | .json | .print => .ok o

def ofLevel (level : Level) : Except UsageError Options := level.given.foldlM add {}

/-- The options of both levels; where both give a value, that of `inner`
counts. -/
def layOver (inner outer : Options) : Options where
  encoding := inner.encoding.or outer.encoding
  config := inner.config.or outer.config
  threads := inner.threads.or outer.threads
  skipBom := inner.skipBom || outer.skipBom
  verbose := inner.verbose || outer.verbose

theorem layOver_self (o : Options) : o.layOver o = o := by
  obtain ⟨encoding, config, threads, skipBom, verbose⟩ := o
  simp [layOver]

end Options

/-! ## Subcommands -/

inductive Action where
  /-- Shows the figures of the index. -/
  | stats (json : Bool)
  /-- Shows where a character starts. -/
  | char (number : Nat)
  /-- Shows where a line starts, and its text if asked for. -/
  | line (number : Nat) (print : Bool)
  /-- Shows the text from a byte to the end of its line. -/
  | seek (byte : Nat)
  deriving DecidableEq, Repr

structure Invocation where
  options : Options
  file : String
  action : Action
  deriving DecidableEq, Repr

def oneOperand (level : Level) : Except UsageError String :=
  match level.operands with
  | [] => .error (.missingOperand "FILE")
  | [file] => readPath file
  | _ :: extra :: _ => .error (.unexpected extra)

def twoOperands (level : Level) (name : String) : Except UsageError (String × Nat) :=
  match level.operands with
  | [] => .error (.missingOperand "FILE")
  | [_] => .error (.missingOperand name)
  | [file, number] => do return (← readPath file, ← readNumber number)
  | _ :: _ :: extra :: _ => .error (.unexpected extra)

/-- Reads the arguments of a subcommand that has the options `own`. -/
def readInner (own : List OptionKey) (arguments : List String) : Except UsageError Level :=
  readLevel false (OptionKey.general ++ own) {} arguments.length arguments

def Level.has (level : Level) (key : OptionKey) : Bool := level.given.any (·.key == key)

def Invocation.parse (arguments : List String) : Except UsageError Invocation := do
  let outer ← readLevel true OptionKey.general {} arguments.length arguments
  let outerOptions ← Options.ofLevel outer
  match outer.operands with
  | ["stats"] =>
    let level ← readInner [.json] outer.rest
    let options := (← Options.ofLevel level).layOver outerOptions
    return { options, file := ← oneOperand level, action := .stats (level.has .json) }
  | ["char"] =>
    let level ← readInner [] outer.rest
    let options := (← Options.ofLevel level).layOver outerOptions
    let (file, number) ← twoOperands level "N"
    return { options, file, action := .char number }
  | ["line"] =>
    let level ← readInner [.print] outer.rest
    let options := (← Options.ofLevel level).layOver outerOptions
    let (file, number) ← twoOperands level "N"
    return { options, file, action := .line number (level.has .print) }
  | ["seek"] =>
    let level ← readInner [] outer.rest
    let options := (← Options.ofLevel level).layOver outerOptions
    let (file, byte) ← twoOperands level "BYTE"
    return { options, file, action := .seek byte }
  | name :: _ => throw (.unexpected name)
  | [] => throw (.missingOperand "COMMAND")

end TextSeek.Command
