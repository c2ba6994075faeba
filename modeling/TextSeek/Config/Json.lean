import TextSeek.Config.Basic

/-!
# JSON text

A strict reader of JSON. It keeps what a configuration needs to know: whether
a number is written as a natural number, the members of an object in order and
with repetitions, and whether a string is text or holds half a surrogate pair.

**Results.**
* `parse?` reads a whole text; nothing but blanks may stand around the value.
-/
namespace TextSeek

inductive Json where
  | null
  | bool (value : Bool)
  /-- A number written as digits alone. -/
  | natural (value : Nat)
  /-- Any other number. -/
  | number
  /-- A string; without text if it holds half a surrogate pair. -/
  | string (text : Option String)
  | array (items : List Json)
  /-- The members in order, each with its name. -/
  | object (members : List (Option String × Json))

namespace Json

/-! ## Strings -/

/-- The characters that code units stand for, unless one is half a pair. -/
def textOfUnits : List UInt16 → Option (List Char)
  | [] => some []
  | unit :: rest =>
    if CodeUnit.isHighSurrogate unit then
      match rest with
      | low :: behind =>
        if CodeUnit.isLowSurrogate low then
          (CodeUnit.pairToChar unit low :: ·) <$> textOfUnits behind
        else none
      | [] => none
    else if CodeUnit.isLowSurrogate unit then none
    else (CodeUnit.toChar unit :: ·) <$> textOfUnits rest

def hexDigit? (c : Char) : Option Nat :=
  if '0' ≤ c && c ≤ '9' then some (c.toNat - '0'.toNat)
  else if 'a' ≤ c && c ≤ 'f' then some (c.toNat - 'a'.toNat + 10)
  else if 'A' ≤ c && c ≤ 'F' then some (c.toNat - 'A'.toNat + 10)
  else none

def hexFour? (a b c d : Char) : Option UInt16 := do
  let a ← hexDigit? a
  let b ← hexDigit? b
  let c ← hexDigit? c
  let d ← hexDigit? d
  return (((a * 16 + b) * 16 + c) * 16 + d).toUInt16

def escaped? (c : Char) : Option Char :=
  [('"', '"'), ('\\', '\\'), ('/', '/'), ('b', '\x08'), ('f', '\x0c'), ('n', '\n'), ('r', '\r'),
    ('t', '\t')].lookup c

/-- The code units of a string behind its opening quote and those found so
far, whose last one comes first; and what follows the closing quote. -/
def stringBody (found : List UInt16) : List Char → Option (List UInt16 × List Char)
  | [] => none
  | '"' :: rest => some (found.reverse, rest)
  | '\\' :: 'u' :: a :: b :: c :: d :: rest =>
    match hexFour? a b c d with
    | some unit => stringBody (unit :: found) rest
    | none => none
  | '\\' :: c :: rest =>
    match escaped? c with
    | some plain => stringBody ((CodeUnit.ofChar plain).reverse ++ found) rest
    | none => none
  | c :: rest =>
    if c.toNat < 0x20 then none else stringBody ((CodeUnit.ofChar c).reverse ++ found) rest

def stringText (chars : List Char) : Option (Option String × List Char) :=
  (stringBody [] chars).map fun (units, rest) => ((textOfUnits units).map String.ofList, rest)

/-! ## Numbers -/

def digits (chars : List Char) : List Char × List Char := chars.span Char.isDigit

def digitsValue (ds : List Char) : Nat := ds.foldl (fun n d => n * 10 + (d.toNat - '0'.toNat)) 0

/-- The digits before a point: a zero alone, or digits that start with
another one. -/
def integerPart (chars : List Char) : Option (List Char × List Char) :=
  match digits chars with
  | ([], _) => none
  | ('0' :: _ :: _, _) => none
  | (ds, rest) => some (ds, rest)

/-- Drops a decimal point with digits behind it, if there is a point. Says
whether there was. -/
def fraction (chars : List Char) : Option (Bool × List Char) :=
  match chars with
  | '.' :: rest =>
    match digits rest with
    | ([], _) => none
    | (_, rest) => some (true, rest)
  | _ => some (false, chars)

/-- Drops an exponent, if there is one. Says whether there was. -/
def exponent (chars : List Char) : Option (Bool × List Char) :=
  match chars with
  | c :: rest =>
    if c == 'e' || c == 'E' then
      let unsigned :=
        match rest with
        | '+' :: more | '-' :: more => more
        | _ => rest
      match digits unsigned with
      | ([], _) => none
      | (_, rest) => some (true, rest)
    else some (false, chars)
  | [] => some (false, [])

def numberValue (chars : List Char) : Option (Json × List Char) := do
  let (negative, unsigned) :=
    match chars with
    | '-' :: rest => (true, rest)
    | _ => (false, chars)
  let (ds, rest) ← integerPart unsigned
  let (hasFraction, rest) ← fraction rest
  let (hasExponent, rest) ← exponent rest
  if negative || hasFraction || hasExponent then return (number, rest)
  else return (natural (digitsValue ds), rest)

/-! ## Values -/

/-- Blanks may stand around every token. -/
def isBlank (c : Char) : Bool := c == ' ' || c == '\t' || c == '\n' || c == '\r'

def skipBlanks (chars : List Char) : List Char := chars.dropWhile isBlank

def afterWord? (word : List Char) (chars : List Char) : Option (List Char) :=
  if word.isPrefixOf chars then some (chars.drop word.length) else none

def openBrace : Char := '\x7b'

def closeBrace : Char := '\x7d'

mutual

/-- The value at the front, and what follows it. Every call uses up one unit
of `fuel` and at least one character. -/
def value (fuel : Nat) (chars : List Char) : Option (Json × List Char) :=
  match fuel with
  | 0 => none
  | fuel + 1 =>
    match skipBlanks chars with
    | [] => none
    | c :: rest =>
      if c == 'n' then (null, ·) <$> afterWord? ['u', 'l', 'l'] rest
      else if c == 't' then (bool true, ·) <$> afterWord? ['r', 'u', 'e'] rest
      else if c == 'f' then (bool false, ·) <$> afterWord? ['a', 'l', 's', 'e'] rest
      else if c == '"' then (stringText rest).map fun (text, rest) => (string text, rest)
      else if c == '[' then
        match skipBlanks rest with
        | ']' :: rest => some (array [], rest)
        | rest => (items fuel [] rest).map fun (found, rest) => (array found, rest)
      else if c == openBrace then
        match skipBlanks rest with
        | [] => none
        | c :: more =>
          if c == closeBrace then some (object [], more)
          else (members fuel [] (c :: more)).map fun (found, rest) => (object found, rest)
      else numberValue (c :: rest)

/-- The items of an array behind `found`, whose last one comes first. -/
def items (fuel : Nat) (found : List Json) (chars : List Char) :
    Option (List Json × List Char) :=
  match fuel with
  | 0 => none
  | fuel + 1 => do
    let (item, rest) ← value fuel chars
    match skipBlanks rest with
    | ',' :: rest => items fuel (item :: found) rest
    | ']' :: rest => return ((item :: found).reverse, rest)
    | _ => none

/-- The members of an object behind `found`, whose last one comes first. -/
def members (fuel : Nat) (found : List (Option String × Json)) (chars : List Char) :
    Option (List (Option String × Json) × List Char) :=
  match fuel with
  | 0 => none
  | fuel + 1 =>
    match skipBlanks chars with
    | '"' :: rest => do
      let (name, rest) ← stringText rest
      let rest ← afterWord? [':'] (skipBlanks rest)
      let (item, rest) ← value fuel rest
      match skipBlanks rest with
      | [] => none
      | c :: rest =>
        if c == ',' then members fuel ((name, item) :: found) rest
        else if c == closeBrace then return (((name, item) :: found).reverse, rest)
        else none
    | _ => none

end

/-- The value that a text stands for, if it is one value with blanks around
it. -/
def parse? (text : String) : Option Json := do
  let chars := text.toList
  let (found, rest) ← value (chars.length + 1) chars
  if (skipBlanks rest).isEmpty then return found else none

end Json
end TextSeek
