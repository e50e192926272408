import CodeSpans.Proofs.Elf.HeaderReading

/-!
# Which images are indexed

An image is indexed just when it has a table and the contents of its sections
(`SectionTable.ofImage_eq_ok_iff_describes`), and the index says what the image stores
(`SectionTable.Describes`).
-/

namespace CodeSpans.Elf

section

variable {image : View} {index : Nat}

/-- All that is read of an entry is in the table. -/
theorem Stored.Located.entry_in_table (h : Stored.Located image)
    (lt : index < Stored.count image) :
    Stored.entryOffset image index + 0x28 ≤
      Stored.tableOffset image + Stored.count image * Stored.entrySize image := by
  rcases h.table with tableless | tabled
  · rw [Stored.count, if_pos tableless] at lt
    cases lt
  · have large := tabled.entrySize_le
    have step : (index + 1) * Stored.entrySize image ≤
        Stored.count image * Stored.entrySize image := Nat.mul_le_mul_right _ lt
    rw [Nat.succ_mul] at step
    unfold Stored.entryOffset
    omega

theorem Stored.Located.entry_within (h : Stored.Located image) (lt : index < Stored.count image) :
    Stored.entryOffset image index + 0x28 ≤ image.size := by
  rcases h.table with tableless | tabled
  · rw [Stored.count, if_pos tableless] at lt
    cases lt
  · exact Nat.le_trans (h.entry_in_table lt) tabled.inImage

/-- An index says what an image stores. -/
structure SectionTable.Describes (image : View) (t : SectionTable) : Prop where
  image_eq : t.image = image
  header : t.header.Describes image
  sections : List.Forall₂ (fun index s => Section.Describes image index s)
    (List.range (Stored.count image)) t.sections
  names_eq : t.names =
    if Stored.namesIndex image = 0 then none else t.sections[Stored.namesIndex image]?

/-- Which images are indexed, and what the index is. -/
theorem SectionTable.ofImage_eq_ok_iff_describes {t : SectionTable} :
    ofImage image = .ok t ↔
      (Stored.Located image ∧ ∀ index < Stored.count image, Stored.Contained image index) ∧
      t.Describes image := by
  have read_iff : Stored.Located image → t.header.Describes image →
      (List.Forall₂ (fun index s => Section.read image t.header index = .ok s)
          (List.range (Stored.count image)) t.sections ↔
        (∀ index < Stored.count image, Stored.Contained image index) ∧
          List.Forall₂ (fun index s => Section.Describes image index s)
            (List.range (Stored.count image)) t.sections) := by
    intro located header
    simp only [← List.mem_range]
    rw [← List.forall₂_and_left]
    constructor
    · intro entries
      have entries := (List.forall₂_and_left _ _).2 ⟨fun _ mem => List.mem_range.1 mem, entries⟩
      refine entries.imp fun index s ⟨lt, hread⟩ => ?_
      exact ((Section.read_eq_ok_iff_contained header (located.entry_within lt)).1 hread).symm
    · intro entries
      have entries := (List.forall₂_and_left _ _).2 ⟨fun _ mem => List.mem_range.1 mem, entries⟩
      refine entries.imp fun index s ⟨lt, contained, describes⟩ => ?_
      exact (Section.read_eq_ok_iff_contained header (located.entry_within lt)).2
        ⟨describes, contained⟩
  have names_iff : t.header.Describes image → (t.header.namesIndex = 0 ↔
      Stored.namesIndex image = 0) := by
    intro header
    rw [← header.namesIndex_eq]
    exact UInt32.toNat_inj.symm
  rw [ofImage_eq_ok_iff, checkIdentification_eq_ok_iff]
  constructor
  · rintro ⟨identified, hheader, himage, entries, hnames⟩
    obtain ⟨table, header⟩ := (Header.read_eq_ok_iff identified.full).1 hheader
    have located : Stored.Located image := ⟨identified, table⟩
    rw [header.entryCount_eq, read_iff located header] at entries
    rw [if_congr (names_iff header) rfl rfl, header.namesIndex_eq] at hnames
    exact ⟨⟨located, entries.1⟩, himage, header, entries.2, hnames⟩
  · rintro ⟨⟨located, contained⟩, himage, header, entries, hnames⟩
    refine ⟨located.toIdentified,
      (Header.read_eq_ok_iff located.full).2 ⟨located.table, header⟩, himage, ?_, ?_⟩
    · rw [header.entryCount_eq, read_iff located header]
      exact ⟨contained, entries⟩
    · rw [if_congr (names_iff header) rfl rfl, header.namesIndex_eq]
      exact hnames

/-! ## Images that have a table -/

/-- Of an image that has a table, nothing but its entries is left to be read. -/
theorem SectionTable.exists_ofImage_eq_map (located : Stored.Located image) :
    ∃ (h : Header) (index : List Section → SectionTable), h.Describes image ∧
      ofImage image =
        ((List.range (Stored.count image)).mapM (Section.read image h)).map index := by
  obtain ⟨h, d⟩ := Header.exists_describes image
  have identified := checkIdentification_eq_ok_iff.2 located.toIdentified
  have read := (Header.read_eq_ok_iff located.full).2 ⟨located.table, d⟩
  refine ⟨h, fun sections => ⟨image, h, sections,
    if h.namesIndex = 0 then none else sections[h.namesIndex.toNat]?⟩, d, ?_⟩
  change (checkIdentification image >>= fun _ => Header.read image >>= fun _ => _) = _
  rw [identified, read, ← d.entryCount_eq]
  rfl

theorem SectionTable.exists_ofImage (located : Stored.Located image)
    (contained : ∀ index < Stored.count image, Stored.Contained image index) :
    ∃ t, ofImage image = .ok t := by
  obtain ⟨h, index, d, same⟩ := exists_ofImage_eq_map located
  have answered : ∀ i ∈ List.range (Stored.count image), ∃ s, Section.read image h i = .ok s := by
    intro i mem
    have lt := List.mem_range.1 mem
    have within := located.entry_within lt
    obtain ⟨s, describes, -⟩ := Section.exists_read_eq d within
    exact ⟨s, (Section.read_eq_ok_iff_contained d within).2 ⟨describes, contained i lt⟩⟩
  obtain ⟨sections, hsections⟩ := Answer.exists_mapM_eq_ok answered
  rw [hsections] at same
  exact ⟨_, same⟩

/-- The first section whose content leaves the image is the one that is reported. -/
theorem SectionTable.ofImage_eq_error (located : Stored.Located image)
    (lt : index < Stored.count image) (before : ∀ i < index, Stored.Contained image i)
    (beyond : ¬Stored.Contained image index) :
    ofImage image =
      .error (.truncated ⟨Stored.fileOffset image index, Stored.size image index, image.size⟩) := by
  obtain ⟨h, table, d, same⟩ := exists_ofImage_eq_map located
  have split : List.range (Stored.count image) =
      List.range index ++ index :: (List.range (Stored.count image)).drop (index + 1) := by
    have inRange : index < (List.range (Stored.count image)).length := by
      rwa [List.length_range]
    have parts := List.take_append_drop index (List.range (Stored.count image))
    rw [List.drop_eq_getElem_cons inRange, List.getElem_range, List.take_range,
      Nat.min_eq_left (Nat.le_of_lt lt)] at parts
    exact parts.symm
  have fails : (List.range (Stored.count image)).mapM (Section.read image h) = .error
      (.truncated ⟨Stored.fileOffset image index, Stored.size image index, image.size⟩) := by
    refine Answer.mapM_eq_error_iff.2 ⟨_, index, _, split, fun i mem => ?_,
      Section.read_eq_error d (located.entry_within lt) beyond⟩
    have below := List.mem_range.1 mem
    have within := located.entry_within (Nat.lt_trans below lt)
    obtain ⟨s, describes, -⟩ := Section.exists_read_eq d within
    exact ⟨s, (Section.read_eq_ok_iff_contained d within).2 ⟨describes, before i below⟩⟩
  rw [same, fails]
  rfl

theorem SectionTable.Describes.length_eq {t : SectionTable} (d : t.Describes image) :
    t.sections.length = Stored.count image := by
  rw [← d.sections.length_eq, List.length_range]

theorem SectionTable.Describes.getElem {t : SectionTable} (d : t.Describes image)
    (lt : index < t.sections.length) : t.sections[index].Describes image index := by
  have inRange : index < (List.range (Stored.count image)).length := by
    rw [List.length_range, ← d.length_eq]
    exact lt
  have entry := d.sections.get inRange lt
  rw [List.get_eq_getElem, List.getElem_range] at entry
  exact entry

/-- Sections are numbered in the order of the table. -/
theorem SectionTable.Describes.index_of_split {t : SectionTable} (d : t.Describes image)
    {before after : List Section} {s : Section} (split : t.sections = before ++ s :: after) :
    s.index = before.length := by
  have place : t.sections[before.length]? = some s := by
    rw [split, List.getElem?_append_right (Nat.le_refl _), Nat.sub_self]
    rfl
  obtain ⟨lt, place⟩ := List.getElem?_eq_some_iff.1 place
  rw [← place]
  exact (d.getElem lt).index_eq

theorem SectionTable.Describes.executable_eq {t : SectionTable} (d : t.Describes image) :
    t.executable = t.sections.filter fun s => s.kind.toNat = 1 ∧ s.flags.toNat &&& 4 ≠ 0 := by
  refine List.filter_congr fun s mem => ?_
  obtain ⟨index, -, ds⟩ := Answer.exists_of_mem d.sections mem
  rw [Bool.eq_iff_iff, ds.isExecutable_iff, ← ds.kind_eq, ← ds.flags_eq, decide_eq_true_iff]

end

end CodeSpans.Elf
