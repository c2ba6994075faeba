import TextSeek.Proofs.Index.Independence
import TextSeek.Proofs.Text.RoundTrip

/-!
# The order of the bytes of a unit

Behind the decoder an indexing run asks its encoding only how many bytes a unit takes
(`Encoding.byteLength`). So two encodings that agree on this make the same index of a text,
entry by entry, if they also write it with the same number of bytes. UTF-16 is such an
encoding twice over, in either order of the bytes of a unit.

Results:
* `cutText_congr`, `Indexing.grow_congr`: partitions, and what each of them adds.
* `indexText_congr`: the index of a text.
* `buildIndexBy_utf16`: runs over a text written in UTF-16.
-/
namespace TextSeek

section

variable {a b : Encoding} (h : a.byteLength = b.byteLength)
include h

theorem Encoding.encodedLength_congr : a.encodedLength = b.encodedLength := by
  funext units
  rw [encodedLength, encodedLength, h]

/-! ## Partitions -/

theorem Seam.cut_congr (seam : Seam) : seam.cut a = seam.cut b := by
  funext found bytes atEnd
  rw [cut, cut, Encoding.encodedLength_congr h, h]

theorem cutText_congr (limit : Nat) (seam : Seam) (text : List UInt16) :
    cutText a limit seam text = cutText b limit seam text := by
  fun_induction cutText b limit seam text with
  | case1 seam text room hlt hstop =>
    rw [cutText, dif_pos hlt, if_pos hstop]
  | case2 seam text room hlt hstop =>
    rw [cutText, dif_pos hlt, if_neg hstop, Seam.cut_congr h, Encoding.encodedLength_congr h]
  | case3 seam text room hlt found p next hc ih =>
    rw [cutText, dif_neg hlt, Seam.cut_congr h, Encoding.encodedLength_congr h]
    simp only
    rw [hc, ih]

/-! ## Marks -/

theorem Kind.marks_congr (k : Kind) (place : Nat) (here : Entry) (previous : Option UInt16)
    (units : List UInt16) :
    k.marks a place here previous units = k.marks b place here previous units := by
  induction units generalizing place here previous with
  | nil => rfl
  | cons unit rest ih =>
    have hpass : k.pass a = k.pass b := by
      funext here units after
      rw [pass, pass, Encoding.encodedLength_congr h]
    rw [marks, marks, ih, hpass]

theorem Partition.placement_congr (p : Partition) : p.placement a = p.placement b := by
  funext charQuota lineQuota o
  simp only [placement, charMarks, lineMarks, Kind.marks_congr h]

theorem Indexing.grow_congr (rule : Budget → UInt64 → Float) :
    Indexing.grow rule a = Indexing.grow rule b := by
  funext s p
  simp only [grow, Partition.placement_congr h, Partition.behind, Encoding.encodedLength_congr h]

/-! ## Whole texts -/

/-- Bytes that are the same text in two encodings, and as many in both, have the same index. -/
theorem indexText_congr (rule : Budget → UInt64 → Float) (config : Config)
    {data data' : List UInt8} {units : List UInt16} (hl : data.length = data'.length)
    (hd : a.decodeAll data = ⟨units, data.length, .complete⟩)
    (hd' : b.decodeAll data' = ⟨units, data'.length, .complete⟩) :
    ∃ index, indexText rule config a data = .ok index ∧
      indexText rule config b data' = .ok index := by
  rw [indexText, indexText, hd, hd', hl, Indexing.grow_congr h, cutText_congr h]
  exact ⟨_, rfl, rfl⟩

end

/-! ## UTF-16 -/

/-- Two ways of writing a text that take as many bytes for each unit take as many for all. -/
theorem Encoding.encode_length_congr {a b : Encoding} (h : a.byteLength = b.byteLength)
    {text : List Char} {bytes bytes' : List UInt8} (ha : a.encode? text = some bytes)
    (hb : b.encode? text = some bytes') : bytes.length = bytes'.length := by
  have hlen := a.decodeAll_encodedLength bytes
  have hlen' := b.decodeAll_encodedLength bytes'
  rw [decodeAll_of_encode ha, encodedLength_congr h] at hlen
  rw [decodeAll_of_encode hb] at hlen'
  exact hlen.symm.trans hlen'

/-- The index of a text written in UTF-16 does not tell which byte of a unit comes first. -/
theorem buildIndexBy_utf16 (rule : Budget → UInt64 → Float) {config : Config}
    (hv : config.fault? = none) (hh : config.headerSkip = 0) {text : List Char}
    {little big : List UInt8} (hle : Encoding.utf16le.encode? text = some little)
    (hbe : Encoding.utf16be.encode? text = some big) {source source' : Source}
    (hs : source.Brings little 0) (hs' : source'.Brings big 0) :
    ∃ index, buildIndexBy rule config .utf16le source = .ok index ∧
      buildIndexBy rule config .utf16be source' = .ok index := by
  have hsame : Encoding.utf16le.byteLength = Encoding.utf16be.byteLength := rfl
  rw [← hh] at hs hs'
  rw [buildIndexBy_eq rule .utf16le hv hs (hh ▸ Nat.zero_le _),
    buildIndexBy_eq rule .utf16be hv hs' (hh ▸ Nat.zero_le _), hh, List.drop_zero, List.drop_zero]
  exact indexText_congr hsame rule config (Encoding.encode_length_congr hsame hle hbe)
    (Encoding.decodeAll_of_encode hle) (Encoding.decodeAll_of_encode hbe)

end TextSeek
