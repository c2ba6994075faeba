import TextSeek.Report.FixedPoint

/-!
# Sizes in bytes

A size is shown in the largest unit that it reaches, with two places; sizes
below a kilobyte are shown in full.

**Results.**
* `sizeText_small`: small sizes are exact.
-/
namespace TextSeek

/-- A unit of size: its bytes and its name. -/
structure SizeUnit where
  bytes : Nat
  name : String

def sizeUnits : List SizeUnit :=
  [⟨1024 * 1024 * 1024, "GB"⟩, ⟨1024 * 1024, "MB"⟩, ⟨1024, "KB"⟩]

/-- A size in words (`format_size`). -/
def sizeText (bytes : Nat) : String :=
  match sizeUnits.find? (·.bytes ≤ bytes) with
  | some unit => fixedText (floatOfCount bytes / floatOfCount unit.bytes) 2 ++ " " ++ unit.name
  | none => toString bytes ++ " bytes"

theorem sizeText_small {bytes : Nat} (h : bytes < 1024) :
    sizeText bytes = toString bytes ++ " bytes" := by
  have hnone : sizeUnits.find? (·.bytes ≤ bytes) = none := by
    rw [List.find?_eq_none]
    intro unit hu
    simp only [sizeUnits, List.mem_cons, List.not_mem_nil, or_false] at hu
    rcases hu with rfl | rfl | rfl <;> simp only [decide_eq_true_eq] <;> omega
  rw [sizeText, hnone]

end TextSeek
