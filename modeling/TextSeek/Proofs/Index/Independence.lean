import TextSeek.Proofs.Index.Cutting
import TextSeek.Proofs.Index.Soundness

/-!
# The index follows from the bytes

What a run makes of a text is settled by the bytes behind the header and by the
limits of the configuration (`indexText`). The buffer of the run, the size of the
reads, the interruptions between them and the way to the file leave no trace in the
index, nor in the error in its place.

Results:
* `buildIndexBy_eq`, `buildIndexBy_beyond`: the outcome of a run, from the bytes.
* `buildIndex_reads`: runs over the same bytes have the same outcome.
-/
namespace TextSeek

variable (rule : Budget → UInt64 → Float) {config : Config} (encoding : Encoding)
  {source : Source} {content : List UInt8}

/-- The outcome of a run over `data`, the bytes behind the header: the index of the
partitions of the text, or the place where they are no text. -/
def indexText (rule : Budget → UInt64 → Float) (config : Config) (encoding : Encoding)
    (data : List UInt8) : Except AccessError TextIndex :=
  let text := encoding.decodeAll data
  if text.ending = .complete then
    let parts := cutText encoding config.partitionUnits {} text.units
    .ok ((parts.foldl (Indexing.grow rule encoding) (.start config data.length)).draft.finish
      config.headerSkip parts)
  else .error (.malformed encoding (config.headerSkip + text.consumed))

theorem indexText_nil : indexText rule config encoding [] = .ok (.empty config.headerSkip) := by
  simp only [indexText, Encoding.decodeAll_nil, cutText_nil]
  rfl

/-- A run over a source that brings all its bytes makes of them what follows from
them. -/
theorem buildIndexBy_eq (hv : config.fault? = none) (hs : source.Brings content config.headerSkip)
    (hh : config.headerSkip ≤ content.length) :
    buildIndexBy rule config encoding source =
      indexText rule config encoding (content.drop config.headerSkip) := by
  by_cases hc : (encoding.decodeAll (content.drop config.headerSkip)).ending = .complete
  · rcases Nat.lt_or_eq_of_le hh with hlt | heq
    · obtain ⟨d, hsteady, rfl, -, hrest, hrun⟩ := buildIndexBy_run rule encoding hv hs hlt
      rw [hrun, ← List.length_drop, ← hrest]
      rw [← hrest] at hc
      rw [partitions_eq hsteady config.partitionUnits hc, indexText, if_pos hc]
      exact indexPartitionsBy_eq rule config d.encoding _ _
    · have hl : source.length = .ok config.headerSkip := by
        rw [heq]
        exact hs.length_eq
      rw [buildIndexBy_empty rule encoding hv hl, heq, List.drop_length, indexText_nil, heq]
  · rw [buildIndexBy_malformed rule encoding hv hs hh hc, indexText, if_neg hc]

theorem buildIndexBy_beyond (hv : config.fault? = none)
    (hs : source.Brings content config.headerSkip) (hh : content.length < config.headerSkip) :
    buildIndexBy rule config encoding source =
      .error (.configuration (.headerBeyondEnd config.headerSkip content.length)) := by
  simp [buildIndexBy, Config.validate, hv, hs.length_eq, liftIo_ok, hh, bind, Except.bind, throw,
    throwThe, MonadExceptOf.throw]

/-! ## Runs over the same bytes -/

theorem buildIndexBy_reads {source' : Source} {buffer buffer' : Nat}
    {strategy strategy' : ReadStrategy} (hv : config.fault? = none) (hb : 0 < buffer)
    (hb' : 0 < buffer') (hs : source.Brings content config.headerSkip)
    (hs' : source'.Brings content config.headerSkip) :
    buildIndexBy rule { config with indexBuffer := buffer, strategy := strategy } encoding source =
      buildIndexBy rule { config with indexBuffer := buffer', strategy := strategy' } encoding
        source' := by
  have hvalid (size : Nat) (way : ReadStrategy) (hsize : 0 < size) :
      ({ config with indexBuffer := size, strategy := way } : Config).fault? = none := by
    rw [Config.fault?_eq_none] at hv ⊢
    exact ⟨hv.1, hv.2.1, hv.2.2.1, hsize⟩
  have hv₁ := hvalid buffer strategy hb
  have hv₂ := hvalid buffer' strategy' hb'
  by_cases hh : config.headerSkip ≤ content.length
  · rw [buildIndexBy_eq rule encoding hv₁ hs hh, buildIndexBy_eq rule encoding hv₂ hs' hh]
    rfl
  · have hh : content.length < config.headerSkip := Nat.lt_of_not_le hh
    rw [buildIndexBy_beyond rule encoding hv₁ hs hh, buildIndexBy_beyond rule encoding hv₂ hs' hh]

/-- Neither the buffer of a run nor the reads of its source show in the outcome. It is
the outcome of reading the file through a handle, and of reading it through a map. -/
theorem buildIndex_reads {source' : Source} {buffer buffer' : Nat}
    {strategy strategy' : ReadStrategy} (hv : config.fault? = none) (hb : 0 < buffer)
    (hb' : 0 < buffer') (hs : source.Brings content config.headerSkip)
    (hs' : source'.Brings content config.headerSkip) :
    buildIndex { config with indexBuffer := buffer, strategy := strategy } encoding source =
        buildIndex { config with indexBuffer := buffer', strategy := strategy' } encoding
          source' ∧
      (content.length ≤ Source.offsetLimit → ∀ way, ∃ chosen,
        Source.choose (.ok (.file content)) way = .ok chosen ∧
        buildIndex { config with indexBuffer := buffer, strategy := way } encoding chosen =
          buildIndex { config with indexBuffer := buffer', strategy := strategy' } encoding
            source') := by
  refine ⟨buildIndexBy_reads Budget.share encoding hv hb hb' hs hs', ?_⟩
  intro hl way
  obtain ⟨chosen, hchosen, hbrings⟩ := Source.choose_brings hl way config.headerSkip
  exact ⟨chosen, hchosen, buildIndexBy_reads Budget.share encoding hv hb hb' hbrings hs'⟩

/-- A buffer of one byte and reads of one byte, the first two of them interrupted,
beside a large buffer and a map, and beside the file itself; the text ends inside a
character. -/
theorem buildIndex_reads_bytewise :
    buildIndex { headerSkip := 1, partitionUnits := 2, indexBuffer := 1 } .utf8
        (.ofBytes [0x23, 0x61, 0x0D, 0xC3] (fun _ => some 1)
          [(0, .interrupted), (1, .interrupted)]) =
      buildIndex { headerSkip := 1, partitionUnits := 2, indexBuffer := 64, strategy := .mapped }
        .utf8 (.ofMap [0x23, 0x61, 0x0D, 0xC3]) ∧
    ∀ way, ∃ chosen, Source.choose (.ok (.file [0x23, 0x61, 0x0D, 0xC3])) way = .ok chosen ∧
      buildIndex { headerSkip := 1, partitionUnits := 2, indexBuffer := 1, strategy := way } .utf8
          chosen =
        buildIndex { headerSkip := 1, partitionUnits := 2, indexBuffer := 64, strategy := .mapped }
          .utf8 (.ofMap [0x23, 0x61, 0x0D, 0xC3]) := by
  have hbrings : (Source.ofBytes [0x23, 0x61, 0x0D, 0xC3] (fun _ => some 1)
      [(0, .interrupted), (1, .interrupted)]).Brings [0x23, 0x61, 0x0D, 0xC3] 1 := by
    refine ⟨rfl, fun _ => ⟨_, rfl, rfl, ?_⟩⟩
    intro k _
    match k with
    | 0 | 1 => exact .inr rfl
    | k + 2 => exact .inl rfl
  have hvalid : ({ headerSkip := 1, partitionUnits := 2 } : Config).fault? = none := by decide
  exact And.imp_right (fun hfile => hfile (by decide))
    (buildIndex_reads .utf8 hvalid (by decide) (by decide) hbrings (Source.ofMap_brings _ 1))

end TextSeek
