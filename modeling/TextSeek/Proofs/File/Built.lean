import TextSeek.Proofs.File.Lookup

/-!
# What an indexed file promises

A file is indexed only if its configuration is valid and the bytes behind its
header are a text. So of every file that was indexed it is known that its index
is true of that text (`Matches`), and that the entries are in order and begin with
the first character and the first line (`Ordered`).

Results:
* `build_keeps`: what an indexed file was asked for.
* `build_inv`, `build_index`: what can be indexed, and what its index is.
* `build_matched`, `build_ordered`: what is known of it then.
* `build_plain`: a file without a header.
-/
namespace TextSeek.IndexedFile

variable {config : Config} {path : String} {encoding : Encoding} {content : List UInt8}
  {f : IndexedFile}

theorem build_keeps {found : Except IoError Node} (hb : build path encoding config found = .ok f) :
    f.path = path ∧ f.encoding = encoding ∧ f.config = config := by
  simp only [build, bind, Except.bind, pure, Except.pure] at hb
  split at hb
  · cases hb
  split at hb
  · cases hb
  split at hb
  · cases hb
  split at hb
  · cases hb
  · cases hb
    exact ⟨rfl, rfl, rfl⟩

/-- Only a text behind a header is indexed, and only by a valid configuration. -/
theorem build_inv (hl : content.length ≤ Source.offsetLimit)
    (hb : build path encoding config (.ok (.file content)) = .ok f) :
    config.fault? = none ∧ config.headerSkip ≤ content.length ∧
      (encoding.decodeAll (content.drop config.headerSkip)).ending = .complete := by
  obtain ⟨source, hsource, hbrings⟩ := Source.choose_brings hl config.strategy config.headerSkip
  have hv : config.fault? = none := by
    cases hv : config.fault? with
    | none => rfl
    | some fault => simp [build, Config.validate, hv, bind, Except.bind] at hb
  have hh : config.headerSkip ≤ content.length := by
    refine Nat.le_of_not_lt fun hlt => ?_
    simp [build, buildIndex, buildIndexBy, Config.validate, hv, hsource, hbrings.length_eq,
      liftIo_ok, hlt, bind, Except.bind, throw, throwThe, MonadExceptOf.throw] at hb
  refine ⟨hv, hh, Decidable.byContradiction fun hc => ?_⟩
  have hrun := buildIndexBy_malformed Budget.share encoding hv hbrings hh hc
  simp [build, buildIndex, Config.validate, hv, hsource, hbrings.length_eq, liftIo_ok, hrun, bind,
    Except.bind] at hb

theorem build_index (hl : content.length ≤ Source.offsetLimit)
    (hb : build path encoding config (.ok (.file content)) = .ok f) :
    ∃ source : Source, source.Brings content config.headerSkip ∧
      buildIndex config encoding source = .ok f.index := by
  obtain ⟨hv, -, -⟩ := build_inv hl hb
  obtain ⟨source, hsource, hbrings⟩ := Source.choose_brings hl config.strategy config.headerSkip
  refine ⟨source, hbrings, ?_⟩
  simp only [build, Config.validate, hv, hsource, hbrings.length_eq, liftIo_ok, bind, Except.bind,
    pure, Except.pure] at hb
  split at hb
  · cases hb
  · next index hindex =>
    cases hb
    exact hindex

/-- The index of a file that was indexed is true of its text. -/
theorem build_matched (hl : content.length ≤ Source.offsetLimit)
    (hb : build path encoding config (.ok (.file content)) = .ok f) :
    f.Matches content ∧ f.encoding = encoding ∧ f.index.dataStart = config.headerSkip := by
  obtain ⟨hv, hh, hc⟩ := build_inv hl hb
  obtain ⟨f', hb', hm⟩ := build_matches path encoding hv hh hl hc
  rw [hb] at hb'
  cases hb'
  exact hm

/-- A file without a header is indexed if its bytes are a text. -/
theorem build_plain {text : WholeText} (path : String) (hv : config.fault? = none)
    (hh : config.headerSkip = 0) (hl : content.length ≤ Source.offsetLimit)
    (ht : encoding.decodeAll content = text) (hc : text.ending = .complete) :
    ∃ f, build path encoding config (.ok (.file content)) = .ok f ∧ f.encoding = encoding ∧
      f.index.dataStart = 0 ∧ (∀ target, f.count target = target.total text.units) ∧
      f.decoded content = text ∧
      ∀ unit, f.byteOf content unit = encoding.encodedLength (text.units.take unit) := by
  subst ht
  have hdrop : content.drop config.headerSkip = content := by rw [hh, List.drop_zero]
  obtain ⟨f, hb, hf, hencoding, hstart⟩ :=
    build_matches path encoding hv (hh ▸ Nat.zero_le _) hl (by rw [hdrop]; exact hc)
  have hdecoded : f.decoded content = encoding.decodeAll content := by
    rw [decoded, hencoding, hstart, hdrop]
  refine ⟨f, hb, hencoding, hstart.trans hh, ?_, hdecoded, ?_⟩
  · intro target
    rw [hf.count_eq, hdecoded]
  · intro unit
    rw [byteOf, hdecoded, hencoding, hstart, hh, Nat.zero_add]

/-- The entries of a file are in order, no more than its configuration allows, and
begin with those of the first character and the first line. -/
structure Ordered (f : IndexedFile) : Prop where
  ascends : ∀ target, (f.entries target).Ascends
  chars_size_le : f.index.chars.size ≤ f.config.maxCharEntries
  lines_size_le : f.index.lines.size ≤ f.config.maxLineEntries
  first : ∀ target, 0 < f.count target →
    ⟨0, f.index.dataStart⟩ ∈ (f.entries target).toList

/-- Where there is room for one entry, it is the first. -/
theorem Ordered.eq_first (h : f.Ordered) {target : Target} (hsize : (f.entries target).size ≤ 1)
    (hpos : 0 < f.count target) {e : Entry} (he : e ∈ (f.entries target).toList) :
    e = ⟨0, f.index.dataStart⟩ := by
  have hfirst := h.first target hpos
  rw [← SparseIndex.length_toList] at hsize
  obtain ⟨only, honly⟩ :=
    List.length_eq_one_iff.1 (Nat.le_antisymm hsize (List.length_pos_of_mem he))
  rw [honly, List.mem_singleton] at he hfirst
  rw [he, hfirst]

theorem build_ordered (hl : content.length ≤ Source.offsetLimit)
    (hb : build path encoding config (.ok (.file content)) = .ok f) : f.Ordered := by
  obtain ⟨hf, rfl, hstart⟩ := build_matched hl hb
  obtain ⟨hv, hh, hc⟩ := build_inv hl hb
  obtain ⟨source, hbrings, hrun⟩ := build_index hl hb
  obtain ⟨index, hindex, hchars, hlines, hcsize, hlsize, hfirst⟩ :=
    buildIndexBy_ordered Budget.share f.encoding hv hbrings hh hc
      (Nat.lt_of_le_of_lt hl (by decide))
  obtain rfl := (build_keeps hb).2.2
  obtain rfl : f.index = index := Except.ok.inj (hrun.symm.trans hindex)
  refine ⟨?_, hcsize, hlsize, ?_⟩
  · intro target
    cases target with
    | character n => exact hchars.imp And.left
    | line n => exact hlines.imp And.left
  · intro target hpos
    have hne : (f.encoding.decodeAll (content.drop f.config.headerSkip)).units ≠ [] := by
      intro hnil
      rw [hf.count_eq, decoded, hstart, hnil] at hpos
      cases target <;> exact absurd hpos (Nat.lt_irrefl 0)
    obtain ⟨hc, hl⟩ := hfirst hne
    rw [hstart]
    cases target with
    | character n => exact List.mem_of_head? hc
    | line n => exact List.mem_of_head? hl

end TextSeek.IndexedFile
