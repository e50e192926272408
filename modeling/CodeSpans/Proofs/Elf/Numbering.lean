import CodeSpans.Elf.Image
import CodeSpans.Proofs.Elf.Names
import CodeSpans.Proofs.Elf.Overwriting
import CodeSpans.Proofs.Elf.Untouched

/-!
# Extended numbering

The count of the sections and the index of their names can be kept in entry 0 instead of the file
header (`extendNumbering`). An image is then indexed with the same header and the same records, but
for the size of the null section, and names and searches by name have the same results
(`SectionTable.ofImage_extendNumbering`).
-/

namespace CodeSpans.Elf

/-- The places where the numbering of sections is kept, in the file header and in entry 0. -/
def Stored.numbering (image : View) : Set Nat :=
  places 0x3c 4 ∪ places (tableOffset image + 0x20) 12

/-- The image with the numbering of its sections moved from the file header to entry 0. -/
def extendNumbering (image : View) : View :=
  let entry := Stored.tableOffset image
  let marked := overwriteNumber (overwriteNumber image 2 0x3c 0) 2 0x3e 0xffff
  overwriteNumber (overwriteNumber marked 8 (entry + 0x20) (image.number 2 0x3c))
    4 (entry + 0x28) (image.number 2 0x3e)

/-- The record with the count of the sections as its size, if it is the one of entry 0. -/
def Section.recount (count : UInt64) (s : Section) : Section :=
  if s.index = 0 then { s with size := count } else s

namespace Stored

/-- The file header has the numbering of the sections, entry 0 is the null section, and there is
room for the numbering in it. -/
structure PlainlyNumbered (image : View) : Prop where
  counted : ¬ExtendedCount image
  named : ¬ExtendedNames image
  behind : 0x40 ≤ tableOffset image
  roomy : 0x2c ≤ entrySize image
  kind_eq : kind image 0 = 0
  fileOffset_eq : fileOffset image 0 = 0

namespace PlainlyNumbered

variable {image : View} (plain : PlainlyNumbered image)

include plain

theorem hasTable : ¬Tableless image := fun tableless => plain.counted tableless.2

theorem count_eq : count image = image.number 2 0x3c := by
  rw [count, if_neg plain.hasTable, if_neg plain.counted]

theorem namesIndex_eq : namesIndex image = image.number 2 0x3e := by
  rw [namesIndex, if_neg plain.hasTable, if_neg plain.named]

theorem count_pos : 0 < count image := by
  rw [plain.count_eq]
  exact Nat.pos_of_ne_zero plain.counted

theorem tabled (located : Located image) : Tabled image :=
  located.table.resolve_left plain.hasTable

/-- There are no more sections than bytes behind the start of the table. -/
theorem count_add_le (located : Located image) :
    tableOffset image + count image ≤ image.size ∧ tableOffset image + 0x2c ≤ image.size := by
  have inImage := (plain.tabled located).inImage
  have roomy := plain.roomy
  have many : count image * 1 ≤ count image * entrySize image :=
    Nat.mul_le_mul_left _ (by omega)
  have first : 1 * entrySize image ≤ count image * entrySize image :=
    Nat.mul_le_mul_right _ plain.count_pos
  omega

end PlainlyNumbered

/-! ## The image with its numbering moved -/

/-- What the image with its numbering moved stores there, and that it differs nowhere else. -/
structure Renumbered (image other : View) : Prop where
  same : View.EqualOutside (numbering image) image other
  extendedCount : ExtendedCount other
  extendedNames : ExtendedNames other
  first_count_eq : other.number 8 (tableOffset image + 0x20) = image.number 2 0x3c
  first_index_eq : other.number 4 (tableOffset image + 0x28) = image.number 2 0x3e

theorem renumbered_extendNumbering {image : View} (behind : 0x40 ≤ tableOffset image)
    (within : tableOffset image + 0x2c ≤ image.size) :
    Renumbered image (extendNumbering image) := by
  have count_lt := View.number_lt image 2 0x3c
  have index_lt := View.number_lt image 2 0x3e
  unfold extendNumbering
  refine ⟨?_, ?_, ?_, ?_, ?_⟩
  · refine View.EqualOutside.mono (((equalOutside_overwriteNumber _ _ _ _).trans
      (equalOutside_overwriteNumber _ _ _ _)).trans ((equalOutside_overwriteNumber _ _ _ _).trans
      (equalOutside_overwriteNumber _ _ _ _))) ?_
    rintro i ((⟨first, last⟩ | ⟨first, last⟩) | (⟨first, last⟩ | ⟨first, last⟩))
    · exact .inl ⟨by omega, by omega⟩
    · exact .inl ⟨by omega, by omega⟩
    · exact .inr ⟨by omega, by omega⟩
    · exact .inr ⟨by omega, by omega⟩
  · unfold ExtendedCount
    rw [number_overwriteNumber_apart (by omega), number_overwriteNumber_apart (by omega),
      number_overwriteNumber_apart (by omega), number_overwriteNumber (by omega) (by omega)]
  · unfold ExtendedNames
    rw [number_overwriteNumber_apart (by omega), number_overwriteNumber_apart (by omega),
      number_overwriteNumber (by rw [size_overwriteNumber]; omega) (by omega)]
  · rw [number_overwriteNumber_apart (by omega),
      number_overwriteNumber (by rw [size_overwriteNumber, size_overwriteNumber]; omega) (by omega)]
  · rw [number_overwriteNumber
      (by rw [size_overwriteNumber, size_overwriteNumber, size_overwriteNumber]; omega) (by omega)]

namespace Renumbered

variable {image other : View} (moved : Renumbered image other)

include moved

theorem size_eq : other.size = image.size := moved.same.size_eq.symm

theorem header_number (plain : PlainlyNumbered image) (width offset : Nat)
    (within : offset + width ≤ 0x3c) : other.number width offset = image.number width offset := by
  have behind := plain.behind
  refine (moved.same.number_eq (Set.disjoint_union_left.2 ⟨?_, ?_⟩)).symm
  · exact places_disjoint (.inr (by omega))
  · exact places_disjoint (.inr (by omega))

theorem tableOffset_eq (plain : PlainlyNumbered image) : tableOffset other = tableOffset image :=
  moved.header_number plain 8 0x28 (by decide)

theorem entrySize_eq (plain : PlainlyNumbered image) : entrySize other = entrySize image :=
  moved.header_number plain 2 0x3a (by decide)

theorem hasTable (plain : PlainlyNumbered image) : ¬Tableless other := by
  intro tableless
  have offset := tableless.1
  have behind := plain.behind
  rw [moved.tableOffset_eq plain] at offset
  omega

theorem count_stays (plain : PlainlyNumbered image) : count other = count image := by
  rw [plain.count_eq, count, if_neg (moved.hasTable plain), if_pos moved.extendedCount,
    moved.tableOffset_eq plain, moved.first_count_eq]

theorem namesIndex_stays (plain : PlainlyNumbered image) : namesIndex other = namesIndex image := by
  rw [plain.namesIndex_eq, namesIndex, if_neg (moved.hasTable plain), if_pos moved.extendedNames,
    moved.tableOffset_eq plain, moved.first_index_eq]

/-! ### The file header -/

theorem identified (plain : PlainlyNumbered image) (h : Identified image) : Identified other := by
  have behind := plain.behind
  refine h.of_equalOutside moved.same (Set.disjoint_union_left.2 ⟨?_, ?_⟩)
  · exact places_disjoint (.inr (by omega))
  · exact places_disjoint (.inr (by omega))

theorem located (plain : PlainlyNumbered image) (h : Located image) : Located other := by
  obtain ⟨entrySize_le, -, -, inImage, namesIndex_lt⟩ := plain.tabled h
  have room := (plain.count_add_le h).2
  refine ⟨moved.identified plain h.toIdentified, .inr ⟨?_, fun _ => ?_, fun _ => ?_, ?_, ?_⟩⟩
  · rwa [moved.entrySize_eq plain]
  · rw [moved.tableOffset_eq plain, moved.size_eq]
    omega
  · rw [moved.tableOffset_eq plain, moved.size_eq]
    omega
  · rwa [moved.tableOffset_eq plain, moved.entrySize_eq plain, moved.count_stays plain, moved.size_eq]
  · rwa [moved.count_stays plain, moved.namesIndex_stays plain]

theorem describes_header (plain : PlainlyNumbered image) {h : Header} (d : h.Describes image) :
    h.Describes other where
  machine_eq := d.machine_eq.trans (moved.header_number plain 2 0x12 (by decide)).symm
  tableOffset_eq := d.tableOffset_eq.trans (moved.tableOffset_eq plain).symm
  entrySize_eq := d.entrySize_eq.trans (moved.entrySize_eq plain).symm
  entryCount_eq := d.entryCount_eq.trans (moved.count_stays plain).symm
  namesIndex_eq := d.namesIndex_eq.trans (moved.namesIndex_stays plain).symm

/-! ### Entries -/

theorem entryOffset_eq (plain : PlainlyNumbered image) (index : Nat) :
    entryOffset other index = entryOffset image index := by
  unfold entryOffset
  rw [moved.tableOffset_eq plain, moved.entrySize_eq plain]

/-- What is moved goes into entry 0, from the size on. -/
theorem entry_number (plain : PlainlyNumbered image) (index width offset : Nat)
    (within : index = 0 → offset + width ≤ 0x20) :
    other.number width (entryOffset other index + offset) =
      image.number width (entryOffset image index + offset) := by
  have behind := plain.behind
  have roomy := plain.roomy
  rw [moved.entryOffset_eq plain]
  unfold entryOffset
  refine (moved.same.number_eq (Set.disjoint_union_left.2 ⟨?_, ?_⟩)).symm
  · exact places_disjoint (.inl (by omega))
  rcases Nat.eq_zero_or_pos index with first | later
  · have before := within first
    subst first
    exact places_disjoint (.inr (by omega))
  · have behindFirst : 1 * entrySize image ≤ index * entrySize image :=
      Nat.mul_le_mul_right _ later
    exact places_disjoint (.inl (by omega))

theorem sameEntry (plain : PlainlyNumbered image) (index : Nat) : SameEntry image other index where
  number_eq width offset within := moved.entry_number plain index width offset fun _ => within

theorem first_size_eq (plain : PlainlyNumbered image) : size other 0 = count image := by
  rw [size, moved.entryOffset_eq plain, plain.count_eq, ← moved.first_count_eq]
  unfold entryOffset
  rw [Nat.zero_mul, Nat.add_zero]

theorem later_size_eq (plain : PlainlyNumbered image) {index : Nat} (later : index ≠ 0) :
    size other index = size image index :=
  moved.entry_number plain index 8 0x20 fun first => absurd first later

theorem contained (plain : PlainlyNumbered image) (h : Located image) {index : Nat}
    (within : Contained image index) : Contained other index := by
  rw [(moved.sameEntry plain index).contained_iff moved.same.size_eq]
  intro hasContent
  by_cases first : index = 0
  · subst first
    have few := (plain.count_add_le h).1
    rw [plain.fileOffset_eq, moved.first_size_eq plain]
    omega
  · rw [moved.later_size_eq plain first]
    exact within hasContent

theorem describes_section (plain : PlainlyNumbered image) {index : Nat} {s : Section}
    (d : s.Describes image index) {n : UInt64} (counts : n.toNat = count image) :
    Section.Describes other index (s.recount n) := by
  unfold Section.recount
  have same := moved.sameEntry plain index
  by_cases first : s.index = 0
  · rw [if_pos first]
    rw [d.index_eq] at first
    subst first
    exact same.describes d (counts.trans (moved.first_size_eq plain).symm)
  · rw [if_neg first]
    rw [d.index_eq] at first
    exact same.describes d (d.size_eq.trans (moved.later_size_eq plain first).symm)

end Renumbered

end Stored

/-! ## The index -/

theorem Section.recount_of_index_ne_zero {s : Section} (later : s.index ≠ 0) (count : UInt64) :
    s.recount count = s := if_neg later

namespace SectionTable

/-- A name does not depend on what size the record says. -/
theorem name_recount (t : SectionTable) (count : UInt64) (s : Section) :
    t.name (s.recount count) = t.name s := by
  unfold Section.recount
  split_ifs
  · rfl
  · rfl

theorem findIn_map_recount {t t' : SectionTable} (names : ∀ s, t'.name s = t.name s)
    (count : UInt64) (wanted : String) (sections : List Section) :
    t'.findIn wanted (sections.map (Section.recount count)) =
      (t.findIn wanted sections).map (Section.recount count) := by
  induction sections with
  | nil => rfl
  | cons s rest ih =>
    have name := (names (s.recount count)).trans (t.name_recount count s)
    rw [List.map_cons]
    cases named : t.name s with
    | error e =>
      rw [named] at name
      rw [findIn_of_fails name, findIn_of_fails named]
      rfl
    | ok other =>
      rw [named] at name
      by_cases found : other = wanted
      · subst found
        rw [findIn_of_named name, findIn_of_named named]
        rfl
      · rw [findIn_of_other name found, findIn_of_other named found, ih]

/-- What the index of an image becomes when the numbering is moved. -/
def recount (t : SectionTable) : SectionTable :=
  { t with
    image := extendNumbering t.image
    sections := t.sections.map (Section.recount t.header.entryCount) }

theorem Describes.recount {image : View} {t : SectionTable} (d : t.Describes image)
    (plain : Stored.PlainlyNumbered image)
    (moved : Stored.Renumbered image (extendNumbering image)) :
    t.recount.Describes (extendNumbering image) where
  image_eq := congrArg extendNumbering d.image_eq
  header := moved.describes_header plain d.header
  sections := by
    rw [moved.count_stays plain]
    refine List.forall₂_map_right_iff.2 (d.sections.imp fun index s ds => ?_)
    exact moved.describes_section plain ds d.header.entryCount_eq
  names_eq := by
    rw [moved.namesIndex_stays plain]
    refine d.names_eq.trans ?_
    by_cases unnamed : Stored.namesIndex image = 0
    · rw [if_pos unnamed, if_pos unnamed]
    · rw [if_neg unnamed, if_neg unnamed]
      change _ = (t.sections.map _)[_]?
      rw [List.getElem?_map]
      cases there : t.sections[Stored.namesIndex image]? with
      | none => rfl
      | some holder =>
        obtain ⟨lt, rfl⟩ := List.getElem?_eq_some_iff.1 there
        have later : (t.sections[Stored.namesIndex image]).index ≠ 0 := by
          rwa [(d.getElem lt).index_eq]
        exact congrArg some (Section.recount_of_index_ne_zero later _).symm

/-- **Extended numbering.** Let the file header of an indexed image have the numbering of its
sections. With the numbering moved to entry 0, the image is indexed with the same header, and with
the same records but for the size of the null section, which is then the count. If the section that
holds the names is apart from what is changed, all names and all searches have the same results. -/
theorem ofImage_extendNumbering {image : View} {t : SectionTable} (indexed : ofImage image = .ok t)
    (plain : Stored.PlainlyNumbered image) :
    ∃ t', ofImage (extendNumbering image) = .ok t' ∧ t'.header = t.header ∧
      t.header.entryCount.toNat = image.number 2 0x3c ∧
      t.header.namesIndex.toNat = image.number 2 0x3e ∧
      t'.sections = t.sections.map (Section.recount t.header.entryCount) ∧
      ((∀ holder, t.names = some holder → Disjoint (Stored.numbering image) holder.range) →
        (∀ s, t'.name s = t.name s) ∧
        ∀ wanted, t'.find wanted = (t.find wanted).map (Section.recount t.header.entryCount)) := by
  obtain ⟨⟨located, contained⟩, d⟩ := ofImage_eq_ok_iff_describes.1 indexed
  have moved := Stored.renumbered_extendNumbering plain.behind (plain.count_add_le located).2
  have count_eq := d.header.entryCount_eq.trans plain.count_eq
  have index_eq := d.header.namesIndex_eq.trans plain.namesIndex_eq
  refine ⟨t.recount, ofImage_eq_ok_iff_describes.2
    ⟨⟨moved.located plain located, fun index lt => ?_⟩, d.recount plain moved⟩,
    rfl, count_eq, index_eq, rfl, fun apart => ?_⟩
  · rw [moved.count_stays plain] at lt
    exact moved.contained plain located (contained index lt)
  · have same : View.EqualOutside (Stored.numbering image) t.image t.recount.image := by
      rw [d.image_eq, (d.recount plain moved).image_eq]
      exact moved.same
    have names : ∀ s, t.recount.name s = t.name s := name_eq_of_equalOutside _ same rfl apart
    exact ⟨names, fun wanted => findIn_map_recount names _ wanted t.sections⟩

/-- A built image with its numbering moved has the same header, its null section has the count as its
size, and the code is found by its name. -/
theorem ofImage_extendNumbering_of_builder :
    ∃ image t t', ofImage image = .ok t ∧ ofImage (extendNumbering image) = .ok t' ∧
      t'.header = t.header ∧ t'.sections.map (·.size) = [3, 1, 17] ∧
      t'.find ".text" = .ok ⟨1, 1, progBits, 6, 0x40, 1, true⟩ := by
  let image := (Image.mk machineX86_64 [.code ".text" [0xc3]]).toView
  let code : Section := ⟨1, 1, progBits, 6, 0x40, 1, true⟩
  let names : Section := ⟨2, 7, strTab, 0, 0x41, 17, false⟩
  have answer : (ofImage image).map
      (fun t => (t.header.entryCount, t.names, t.sections, t.find ".text")) =
      .ok (3, some names, [⟨0, 0, 0, 0, 0, 0, false⟩, code, names], .ok code) := by decide +kernel
  obtain ⟨t, indexed, same⟩ := Answer.map_eq_ok_iff.1 answer
  obtain ⟨count, same⟩ := Prod.mk.inj same
  obtain ⟨held, same⟩ := Prod.mk.inj same
  obtain ⟨sections, found⟩ := Prod.mk.inj same
  have plain : Stored.PlainlyNumbered image := by
    refine ⟨?_, ?_, ?_, ?_, ?_, ?_⟩
    all_goals decide +kernel
  have table : Stored.tableOffset image = 0x52 := by decide +kernel
  obtain ⟨t', indexed', header, -, -, sections', kept⟩ := ofImage_extendNumbering indexed plain
  have apart : ∀ holder, t.names = some holder →
      Disjoint (Stored.numbering image) holder.range := by
    rw [held]
    rintro _ ⟨⟩
    refine Set.disjoint_union_left.2 ⟨places_disjoint (.inl (by decide)), ?_⟩
    rw [table]
    exact places_disjoint (.inr (by decide))
  refine ⟨image, t, t', indexed, indexed', header, ?_, ?_⟩
  · rw [sections', sections, count]
    decide +kernel
  · rw [(kept apart).2, found, count]
    decide +kernel

end SectionTable

end CodeSpans.Elf
