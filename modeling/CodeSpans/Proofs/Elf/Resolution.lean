import CodeSpans.Elf.Image
import CodeSpans.Proofs.Elf.Indexing
import CodeSpans.Proofs.Elf.Names

/-!
# How names resolve in an index

Against the index of an image, a name is resolved in the bytes that are recorded for the section
that holds the names, whatever the kind of that section, and a search by name goes through the
sections in order (`SectionTable.ofImage_resolves`). For a section that has content, what is
recorded is the content. A section of kind `noBits` has none, and names are read from the image all
the same (`SectionTable.readsContent_iff`).
-/

namespace CodeSpans.Elf.SectionTable

/-- The name of a section as it resolves in the bytes that are recorded for `holder`. -/
structure ResolvesFrom (t : SectionTable) (holder s : Section) : Prop where
  beyond : t.image.size < holder.fileOffset.toNat + holder.size.toNat →
    t.name s = .error (.truncated ⟨holder.fileOffset.toNat, holder.size.toNat, t.image.size⟩)
  named : holder.fileOffset.toNat + holder.size.toNat ≤ t.image.size → ∀ text,
    t.name s = .ok text ↔ s.nameOffset.toNat < (holder.recorded t.image).length ∧
      ∃ m, FirstNul (holder.recorded t.image) s.nameOffset.toNat m ∧
        text = Utf8.decode ((holder.recorded t.image).extract s.nameOffset.toNat m)
  unended : holder.fileOffset.toNat + holder.size.toNat ≤ t.image.size →
    (∀ text, t.name s ≠ .ok text) →
      t.name s = .error
        (.truncated ⟨holder.fileOffset.toNat + s.nameOffset.toNat, 1, t.image.size⟩)

/-- Where a search for a name ends, the sections in front having other names. -/
structure Searches (t : SectionTable) (wanted : String) : Prop where
  found : ∀ s, t.find wanted = .ok s ↔
    ∃ before after, t.sections = before ++ s :: after ∧ s.index = before.length ∧
      (∀ b ∈ before, ∃ other, t.name b = .ok other ∧ other ≠ wanted) ∧ t.name s = .ok wanted
  absent : t.find wanted = .error (.noSuchSection wanted) ↔
    ∀ s ∈ t.sections, ∃ other, t.name s = .ok other ∧ other ≠ wanted
  fails : ∀ e ≠ .noSuchSection wanted, t.find wanted = .error e ↔
    ∃ before s after, t.sections = before ++ s :: after ∧ s.index = before.length ∧
      (∀ b ∈ before, ∃ other, t.name b = .ok other ∧ other ≠ wanted) ∧ t.name s = .error e

section

variable {image : View} {t : SectionTable} {holder s : Section}

/-! ## The section that holds the names -/

/-- Where there are sections, the index of the names is one of theirs. -/
theorem namesIndex_lt (indexed : ofImage image = .ok t) (nonempty : t.sections ≠ []) :
    t.header.namesIndex.toNat < t.sections.length := by
  obtain ⟨⟨located, -⟩, d⟩ := ofImage_eq_ok_iff_describes.1 indexed
  rw [d.length_eq, d.header.namesIndex_eq]
  have count : Stored.count image ≠ 0 := by
    rw [← d.length_eq]
    exact mt List.eq_nil_of_length_eq_zero nonempty
  rcases located.table with tableless | tabled
  · rw [Stored.count, if_pos tableless] at count
    exact absurd rfl count
  · exact tabled.namesIndex_lt.resolve_left count

theorem names_eq_none_iff (indexed : ofImage image = .ok t) :
    t.names = none ↔ t.header.namesIndex = 0 ∨ t.sections = [] := by
  obtain ⟨-, -, -, -, names⟩ := ofImage_eq_ok_iff.1 indexed
  rw [names]
  by_cases zero : t.header.namesIndex = 0
  · rw [if_pos zero]
    exact iff_of_true rfl (.inl zero)
  · rw [if_neg zero, List.getElem?_eq_none_iff, or_iff_right zero]
    constructor
    · intro beyond
      by_contra nonempty
      exact Nat.not_le.2 (namesIndex_lt indexed nonempty) beyond
    · intro none
      rw [none]
      exact Nat.zero_le _

theorem names_eq_some_iff (indexed : ofImage image = .ok t) :
    t.names = some holder ↔
      t.header.namesIndex ≠ 0 ∧ t.sections[t.header.namesIndex.toNat]? = some holder := by
  obtain ⟨-, -, -, -, names⟩ := ofImage_eq_ok_iff.1 indexed
  rw [names]
  by_cases zero : t.header.namesIndex = 0
  · simp [zero]
  · simp [zero]

theorem resolvesFrom (held : t.names = some holder) (s : Section) : t.ResolvesFrom holder s where
  beyond h := name_of_beyond held h
  named within text := by
    rw [name_eq_ok_iff held within]
    constructor
    · intro h
      obtain ⟨m, found, rfl⟩ := h
      exact ⟨found.lt, m, found, rfl⟩
    · intro h
      exact h.2
  unended within unnamed := name_of_unended held within fun m found =>
    unnamed _ ((name_eq_ok_iff held within).2 ⟨m, found, rfl⟩)

/-! ## Searches -/

theorem searches (d : t.Describes image) (wanted : String) : t.Searches wanted where
  found s := by
    unfold find
    rw [findIn_eq_ok_iff]
    refine exists_congr fun before => exists_congr fun after => and_congr_right fun split => ?_
    exact (and_iff_right (d.index_of_split split)).symm
  absent := by
    unfold find
    rw [findIn_eq_error_iff]
    constructor
    · rintro (⟨-, others⟩ | ⟨before, s, after, -, -, fails⟩)
      · exact others
      · obtain ⟨same, -⟩ | ⟨o, same⟩ := name_error_cases fails <;> cases same
    · intro others
      exact .inl ⟨rfl, others⟩
  fails e other := by
    unfold find
    rw [findIn_eq_error_iff, or_iff_right fun absent => other absent.1]
    refine exists_congr fun before => exists_congr fun s => exists_congr fun after =>
      and_congr_right fun split => ?_
    exact (and_iff_right (d.index_of_split split)).symm

end

/-- **Names and searches, exactly.** Of an index, names are missing just where it says so or has no
sections. Otherwise every name, of a section of the index or not, is what stands before the first
NUL in the bytes recorded for the section that holds the names, and it is an error if these leave
the image or there is no such NUL. A search ends at the first section that has the name or whose
name does not resolve, and if there is neither, no section has the name. -/
theorem ofImage_resolves {image : View} {t : SectionTable} (indexed : ofImage image = .ok t) :
    t.image = image ∧
    (∀ s, t.name s = .error .noNames ↔ t.header.namesIndex = 0 ∨ t.sections = []) ∧
    (¬ (t.header.namesIndex = 0 ∨ t.sections = []) →
      ∃ holder, t.sections[t.header.namesIndex.toNat]? = some holder ∧
        ∀ s, t.ResolvesFrom holder s) ∧
    ∀ wanted, t.Searches wanted := by
  have d := (ofImage_eq_ok_iff_describes.1 indexed).2
  refine ⟨d.image_eq, fun s => ?_, fun present => ?_, searches d⟩
  · rw [← names_eq_none_iff indexed]
    constructor
    · intro h
      obtain ⟨-, none⟩ | ⟨o, same⟩ := name_error_cases h
      · exact none
      · cases same
    · intro none
      unfold name
      rw [none]
      rfl
  · rw [← names_eq_none_iff indexed] at present
    obtain ⟨holder, held⟩ := Option.ne_none_iff_exists'.1 present
    exact ⟨holder, ((names_eq_some_iff indexed).1 held).2, resolvesFrom held⟩

/-- With index zero for the names there is no name at all. Where there are names, there is none at
their very end, and what a search finds stands behind sections with other names. -/
theorem ofImage_resolves_of_builder :
    (∃ image t, ofImage image = .ok t ∧ ∀ s, t.name s = .error .noNames) ∧
    (∃ image t, ofImage image = .ok t ∧
      (∀ s : Section, s.nameOffset.toNat = 17 →
        t.name s = .error (.truncated ⟨0x41 + 17, 1, image.size⟩)) ∧
      ∃ before s after, t.sections = before ++ s :: after ∧ s.index = before.length ∧
        (∀ b ∈ before, ∃ other, t.name b = .ok other ∧ other ≠ ".text") ∧
        t.name s = .ok ".text") := by
  constructor
  · let image := View.ofList
      ((Image.mk machineX86_64 [.code ".text" [0xc3]]).toBytes.set 0x3e 0)
    have answer : (ofImage image).map (·.header.namesIndex) = .ok 0 := by decide +kernel
    obtain ⟨t, indexed, zero⟩ := Answer.map_eq_ok_iff.1 answer
    exact ⟨image, t, indexed, fun s => ((ofImage_resolves indexed).2.1 s).2 (.inl zero)⟩
  · let image := (Image.mk machineX86_64 [.code ".text" [0xc3]]).toView
    have answer : (ofImage image).map (fun t =>
          (t.header.namesIndex, t.sections[2]?, (t.find ".text").isOk)) =
        .ok (2, some ⟨2, 7, strTab, 0, 0x41, 17, false⟩, true) := by decide +kernel
    obtain ⟨t, indexed, same⟩ := Answer.map_eq_ok_iff.1 answer
    obtain ⟨index, same⟩ := Prod.mk.inj same
    obtain ⟨there, finds⟩ := Prod.mk.inj same
    obtain ⟨image_eq, -, resolves, searches⟩ := ofImage_resolves indexed
    have present : ¬ (t.header.namesIndex = 0 ∨ t.sections = []) := by
      rw [index]
      rintro (zero | none)
      · cases zero
      · rw [none] at there
        cases there
    obtain ⟨holder, held, resolved⟩ := resolves present
    rw [index] at held
    obtain rfl := Option.some_inj.1 (held.symm.trans there)
    have within : 0x41 + 17 ≤ t.image.size := by
      rw [image_eq]
      decide +kernel
    refine ⟨image, t, indexed, fun s atEnd => ?_, ?_⟩
    · have unnamed : ∀ text, t.name s ≠ .ok text := by
        intro text named
        have inside := (((resolved s).named within text).1 named).1
        rw [atEnd] at inside
        exact absurd inside (Nat.not_lt.2 (List.length_take_le _ _))
      have fails := (resolved s).unended within unnamed
      rw [atEnd, image_eq] at fails
      exact fails
    · cases found : t.find ".text" with
      | error e =>
        rw [found] at finds
        cases finds
      | ok s =>
        obtain ⟨before, after, ahead⟩ := ((searches ".text").found s).1 found
        exact ⟨before, s, after, ahead⟩

/-! ## The content of the section that holds the names -/

/-- Names are what stands before a NUL in the content of `holder`, and nothing else than that there
is no NUL makes them fail. -/
structure ReadsContent (t : SectionTable) (holder : Section) : Prop where
  named : ∀ code, t.content holder = .ok code → ∀ s text,
    t.name s = .ok text ↔ ∃ m, FirstNul code.toList s.nameOffset.toNat m ∧
      text = Utf8.decode (code.toList.extract s.nameOffset.toNat m)
  unended : ∀ s, (∀ text, t.name s ≠ .ok text) →
    t.name s = .error
      (.truncated ⟨holder.fileOffset.toNat + s.nameOffset.toNat, 1, t.image.size⟩)

section

variable {image : View} {t : SectionTable} {holder : Section}

theorem readsContent_of_content (held : t.names = some holder) {code : View}
    (contained : t.content holder = .ok code) (kind : holder.kind ≠ noBits) :
    t.ReadsContent holder := by
  obtain ⟨within, same⟩ := (Section.content_eq_ok_iff kind).1 contained
  refine ⟨fun code' contained' s text => ?_, fun s => (resolvesFrom held s).unended within⟩
  obtain rfl : code = code' := Except.ok.inj (contained.symm.trans contained')
  rw [same]
  exact name_eq_ok_iff held within

/-- Of a section that has no content, names are read nevertheless, unless there is no NUL. -/
theorem readsContent_iff_of_reserved (held : t.names = some holder) (kind : holder.kind = noBits) :
    t.ReadsContent holder ↔
      holder.fileOffset.toNat + holder.size.toNat ≤ t.image.size ∧ 0 ∉ holder.recorded t.image := by
  have empty : t.content holder = .ok .empty := Section.content_of_noBits kind
  have nothing : ∀ n m, ¬ FirstNul View.empty.toList n m := fun n m found =>
    absurd found.lt (Nat.not_lt_zero n)
  constructor
  · intro reads
    have within : holder.fileOffset.toNat + holder.size.toNat ≤ t.image.size := by
      -- a name at offset 1 would be missed at another place than where the names begin
      by_contra beyond
      let s : Section := { holder with nameOffset := 1 }
      have fails : t.name s = _ := name_of_beyond held (Nat.not_le.1 beyond)
      have missed := reads.unended s (by rw [fails]; exact nofun)
      rw [fails] at missed
      have place : holder.fileOffset.toNat = holder.fileOffset.toNat + 1 :=
        congrArg Overrun.offset (Error.truncated.inj (Except.error.inj missed))
      omega
    refine ⟨within, fun nul => ?_⟩
    let s : Section := { holder with nameOffset := 0 }
    obtain ⟨m, found⟩ := (exists_firstNul_iff (n := 0)).2 nul
    have named := (name_eq_ok_iff held within (s := s)).2 ⟨m, found, rfl⟩
    obtain ⟨m', found', -⟩ := (reads.named _ empty s _).1 named
    exact nothing _ _ found'
  · intro h
    obtain ⟨within, noNul⟩ := h
    have unended : ∀ n m, ¬ FirstNul (holder.recorded t.image) n m := fun n m found =>
      noNul (List.mem_of_mem_drop (exists_firstNul_iff.1 ⟨m, found⟩))
    refine ⟨fun code contained s text => ?_, fun s => (resolvesFrom held s).unended within⟩
    obtain rfl : View.empty = code := Except.ok.inj (empty.symm.trans contained)
    rw [name_eq_ok_iff held within]
    constructor
    · intro h
      obtain ⟨m, found, -⟩ := h
      exact absurd found (unended _ m)
    · intro h
      obtain ⟨m, found, -⟩ := h
      exact absurd found (nothing _ m)

end

/-- **Where the names are content.** The section that holds the names has its content in the image,
or none. Names are read from its content just where it is of a kind that has some, and otherwise
where its recorded bytes are in the image without a NUL among them, so that there are no names. -/
theorem readsContent_iff {image : View} {t : SectionTable} {holder : Section}
    (indexed : ofImage image = .ok t) (hasNames : t.header.namesIndex ≠ 0)
    (there : t.sections[t.header.namesIndex.toNat]? = some holder) :
    (∃ code, t.content holder = .ok code) ∧
    (t.ReadsContent holder ↔ holder.kind ≠ noBits ∨
      holder.fileOffset.toNat + holder.size.toNat ≤ image.size ∧ 0 ∉ holder.recorded image) := by
  have held := (names_eq_some_iff indexed).2 ⟨hasNames, there⟩
  obtain ⟨code, contained⟩ := exists_content_of_mem indexed (List.mem_of_getElem? there)
  refine ⟨⟨code, contained⟩, ?_⟩
  by_cases kind : holder.kind = noBits
  · rw [readsContent_iff_of_reserved held kind, image_of_ofImage indexed]
    exact (or_iff_right (not_not_intro kind)).symm
  · exact iff_of_true (readsContent_of_content held contained kind) (.inl kind)

/-- With its names held by a section that has no content, an image is indexed, and names are read
from where that section says that its bytes are. -/
theorem readsContent_iff_of_reserved_names :
    ∃ image t holder, ofImage image = .ok t ∧
      t.sections[t.header.namesIndex.toNat]? = some holder ∧ holder.kind = noBits ∧
      (∃ code, t.content holder = .ok code) ∧ ¬ t.ReadsContent holder := by
  let image := View.ofList
    ((Image.mk machineX86_64 [.reserved ".bss" 16]).toBytes.set 0x3e 1)
  let holder : Section := ⟨1, 1, noBits, flagAlloc, 0x40, 16, false⟩
  have answer : (ofImage image).map (fun t => (t.header.namesIndex, t.sections[1]?)) =
      .ok (1, some holder) := by decide +kernel
  obtain ⟨t, indexed, same⟩ := Answer.map_eq_ok_iff.1 answer
  obtain ⟨index, there⟩ := Prod.mk.inj same
  have hasNames : t.header.namesIndex ≠ 0 := by
    rw [index]
    decide
  have held : t.sections[t.header.namesIndex.toNat]? = some holder := by
    rw [index]
    exact there
  have ended : 0 ∈ holder.recorded image := by decide +kernel
  obtain ⟨contained, reads⟩ := readsContent_iff indexed hasNames held
  refine ⟨image, t, holder, indexed, held, rfl, contained, fun content => ?_⟩
  obtain kind | ⟨-, unended⟩ := reads.1 content
  · exact kind rfl
  · exact unended ended

end CodeSpans.Elf.SectionTable
