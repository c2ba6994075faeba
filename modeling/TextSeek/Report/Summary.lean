import TextSeek.File.IndexedFile
import TextSeek.Report.Size

/-!
# Summaries of an index

A `Summary` holds the figures of an index. It is shown as a text for people or
as a JSON object with its members in a fixed order, one on a line.
-/
namespace TextSeek

/-- The figures of an index. -/
structure Summary where
  path : String
  encoding : String
  fileSize : Nat
  headerSkip : Nat
  characters : Nat
  lines : Nat
  charEntries : Nat
  lineEntries : Nat
  maxCharEntries : Nat
  maxLineEntries : Nat
  deriving DecidableEq, Repr

def IndexedFile.summary (f : IndexedFile) : Summary where
  path := f.path
  encoding := f.encoding.name
  fileSize := f.size
  headerSkip := f.index.dataStart
  characters := f.index.totalChars
  lines := f.index.totalLines
  charEntries := f.index.chars.size
  lineEntries := f.index.lines.size
  maxCharEntries := f.config.maxCharEntries
  maxLineEntries := f.config.maxLineEntries

namespace Summary

def ratio (count entries : Nat) : Float :=
  if entries = 0 then 0.0 else floatOfCount count / floatOfCount entries

def charsPerEntry (s : Summary) : Float := ratio s.characters s.charEntries

def linesPerEntry (s : Summary) : Float := ratio s.lines s.lineEntries

/-! ## As text -/

def alignRight (text : String) (width : Nat) : String :=
  "".pushn ' ' (width - text.length) ++ text

def alignLeft (text : String) (width : Nat) : String := text.pushn ' ' (width - text.length)

def entriesLine (name : String) (entries limit : Nat) (perEntry : Float) : String :=
  "  " ++ name ++ "  " ++ alignRight (toString entries) 8 ++ " / " ++
    alignLeft (toString limit) 8 ++ " (1 per " ++ fixedText perEntry 1 ++ " " ++ name ++ ")"

def textLines (s : Summary) : List String :=
  ["Index Statistics",
   "================",
   "",
   "File:             " ++ s.path,
   "Encoding:         " ++ s.encoding,
   "File size:        " ++ sizeText s.fileSize] ++
  (if 0 < s.headerSkip then ["Header skipped:   " ++ toString s.headerSkip ++ " bytes"] else []) ++
  ["Characters:       " ++ toString s.characters,
   "Lines:            " ++ toString s.lines,
   "",
   "Index entries:",
   entriesLine "chars" s.charEntries s.maxCharEntries s.charsPerEntry,
   entriesLine "lines" s.lineEntries s.maxLineEntries s.linesPerEntry]

def joinLines (lines : List String) : String := String.join (lines.map (· ++ "\n"))

def text (s : Summary) : String := joinLines s.textLines

/-! ## As JSON -/

def hexDigit (n : Nat) : Char := if n < 10 then Char.ofNat (48 + n) else Char.ofNat (87 + n)

def quoteChar (c : Char) : String :=
  if c == '"' then "\\\""
  else if c == '\\' then "\\\\"
  else if c == '\x08' then "\\b"
  else if c == '\x0c' then "\\f"
  else if c == '\n' then "\\n"
  else if c == '\r' then "\\r"
  else if c == '\t' then "\\t"
  else if c.toNat < 0x20 then
    "\\u00" ++ String.ofList [hexDigit (c.toNat / 16), hexDigit (c.toNat % 16)]
  else c.toString

def quote (text : String) : String := "\"" ++ String.join (text.toList.map quoteChar) ++ "\""

/-- The members of the object that are numbers. -/
def figures (s : Summary) : List (String × Nat) :=
  [("fileSize", s.fileSize), ("headerSkipBytes", s.headerSkip), ("characters", s.characters),
   ("lines", s.lines), ("charIndexEntries", s.charEntries), ("lineIndexEntries", s.lineEntries),
   ("maxCharIndexEntries", s.maxCharEntries), ("maxLineIndexEntries", s.maxLineEntries)]

/-- All members of the object, written out. -/
def members (s : Summary) : List (String × String) :=
  [("path", quote s.path), ("encoding", quote s.encoding)] ++
    s.figures.map fun (name, value) => (name, toString value)

def json (s : Summary) : String :=
  let lines := s.members.map fun (name, value) => "  " ++ quote name ++ ": " ++ value
  "\x7b\n" ++ ",\n".intercalate lines ++ "\n\x7d"

end Summary
end TextSeek
