import CodeSpans.Proofs.Bytes.Agreement
import CodeSpans.Proofs.Elf.Indexing

/-!
# Images with the same table

Two images that differ in no place of the file header and the section header table store the same
fields (`Stored.Untouched`). If one of them is indexed, so is the other, with the same records
(`SectionTable.ofImage_of_equalOutside`), and with the same names where the section that holds them
is the same too (`SectionTable.name_eq_of_equalOutside`).
-/

namespace CodeSpans.Elf

/-- Two images store the same in the file header. -/
structure Stored.SameHeader (image other : View) : Prop where
  number_eq : ∀ width offset, offset + width ≤ 0x40 →
    other.number width offset = image.number width offset

namespace Stored.SameHeader

variable {image other : View} (same : SameHeader image other)

include same

theorem tableOffset_eq : tableOffset other = tableOffset image :=
  same.number_eq 8 0x28 (by decide)

theorem entrySize_eq : entrySize other = entrySize image :=
  same.number_eq 2 0x3a (by decide)

theorem tableless_iff : Tableless other ↔ Tableless image := by
  unfold Tableless
  rw [same.tableOffset_eq, same.number_eq 2 0x3c (by decide)]

theorem extendedCount_iff : ExtendedCount other ↔ ExtendedCount image := by
  unfold ExtendedCount
  rw [same.number_eq 2 0x3c (by decide)]

theorem extendedNames_iff : ExtendedNames other ↔ ExtendedNames image := by
  unfold ExtendedNames
  rw [same.number_eq 2 0x3e (by decide)]

theorem count_eq
    (first : other.number 8 (tableOffset image + 0x20) = image.number 8 (tableOffset image + 0x20)) :
    count other = count image := by
  unfold count
  rw [if_congr same.tableless_iff rfl rfl, if_congr same.extendedCount_iff rfl rfl,
    same.tableOffset_eq, same.number_eq 2 0x3c (by decide), first]

theorem namesIndex_eq
    (first : ExtendedNames image →
      other.number 4 (tableOffset image + 0x28) = image.number 4 (tableOffset image + 0x28)) :
    namesIndex other = namesIndex image := by
  unfold namesIndex
  rw [if_congr same.tableless_iff rfl rfl, if_congr same.extendedNames_iff rfl rfl,
    same.tableOffset_eq, same.number_eq 2 0x3e (by decide)]
  by_cases extended : ExtendedNames image
  · rw [first extended]
  · rw [if_neg extended, if_neg extended]

theorem describes {h : Header} (d : h.Describes image) (count : count other = count image)
    (names : namesIndex other = namesIndex image) : h.Describes other where
  machine_eq := d.machine_eq.trans (same.number_eq 2 0x12 (by decide)).symm
  tableOffset_eq := d.tableOffset_eq.trans same.tableOffset_eq.symm
  entrySize_eq := d.entrySize_eq.trans same.entrySize_eq.symm
  entryCount_eq := d.entryCount_eq.trans count.symm
  namesIndex_eq := d.namesIndex_eq.trans names.symm

end Stored.SameHeader

/-- The image is identified by its first bytes. -/
theorem Stored.Identified.of_equalOutside {changed : Set Nat} {image other : View}
    (h : Identified image) (same : View.EqualOutside changed image other)
    (apart : Disjoint changed (places 0 6)) : Identified other := by
  have kept : ∀ width offset, offset + width ≤ 6 → Disjoint changed (places offset width) :=
    fun width offset within => apart.mono_right (places_subset (Nat.zero_le offset) (by omega))
  have magic : (image.toList.drop 0).take 4 = (other.toList.drop 0).take 4 :=
    same.cut_eq (kept 4 0 (by decide))
  refine ⟨?_, ?_, ?_, ?_⟩
  · rw [← same.size_eq]
    exact h.full
  · exact magic.symm.trans h.magic
  · rw [← same.number_eq (kept 1 4 (by decide))]
    exact h.class64
  · rw [← same.number_eq (kept 1 5 (by decide))]
    exact h.littleEndian

/-- Two images store the same in an entry, but for the size. -/
structure Stored.SameEntry (image other : View) (index : Nat) : Prop where
  number_eq : ∀ width offset, offset + width ≤ 0x20 →
    other.number width (entryOffset other index + offset) =
      image.number width (entryOffset image index + offset)

namespace Stored.SameEntry

variable {image other : View} {index : Nat} (same : SameEntry image other index)

include same

theorem nameOffset_eq : nameOffset other index = nameOffset image index :=
  same.number_eq 4 0 (by decide)

theorem kind_eq : kind other index = kind image index :=
  same.number_eq 4 0x04 (by decide)

theorem flags_eq : flags other index = flags image index :=
  same.number_eq 8 0x08 (by decide)

theorem fileOffset_eq : fileOffset other index = fileOffset image index :=
  same.number_eq 8 0x18 (by decide)

theorem contained_iff (length : image.size = other.size) :
    Contained other index ↔
      (kind image index ≠ 8 → fileOffset image index + size other index ≤ image.size) := by
  unfold Contained
  rw [same.kind_eq, same.fileOffset_eq, length]

theorem describes {s : Section} (d : s.Describes image index) {n : UInt64}
    (size_eq : n.toNat = size other index) : Section.Describes other index { s with size := n } where
  index_eq := d.index_eq
  nameOffset_eq := d.nameOffset_eq.trans same.nameOffset_eq.symm
  kind_eq := d.kind_eq.trans same.kind_eq.symm
  flags_eq := d.flags_eq.trans same.flags_eq.symm
  fileOffset_eq := d.fileOffset_eq.trans same.fileOffset_eq.symm
  size_eq := size_eq
  isExecutable_iff := by
    rw [same.kind_eq, same.flags_eq]
    exact d.isExecutable_iff

end Stored.SameEntry

/-- None of some places is in the file header, in the table, or where extended numbering is kept. -/
structure Stored.Untouched (changed : Set Nat) (image : View) : Prop where
  header : Disjoint changed (places 0 0x40)
  first : Disjoint changed (places (tableOffset image) 0x2c)
  table : Disjoint changed (places (tableOffset image) (count image * entrySize image))

namespace Stored.Untouched

variable {changed : Set Nat} {image other : View}

theorem sameHeader (untouched : Untouched changed image)
    (same : View.EqualOutside changed image other) : SameHeader image other where
  number_eq width offset within := by
    have apart := untouched.header.mono_right (places_subset (Nat.zero_le offset) (by omega))
    exact (same.number_eq apart).symm

theorem first_number (untouched : Untouched changed image)
    (same : View.EqualOutside changed image other) (width offset : Nat)
    (within : offset + width ≤ 0x2c) :
    other.number width (tableOffset image + offset) =
      image.number width (tableOffset image + offset) := by
  have last : tableOffset image + offset + width ≤ tableOffset image + 0x2c := by omega
  have apart := untouched.first.mono_right
    (places_subset (Nat.le_add_right (tableOffset image) offset) last)
  exact (same.number_eq apart).symm

/-! ## The file header -/

section

variable (untouched : Untouched changed image) (same : View.EqualOutside changed image other)

include untouched same

theorem count_eq : count other = count image :=
  (untouched.sameHeader same).count_eq (untouched.first_number same 8 0x20 (by decide))

theorem namesIndex_eq : namesIndex other = namesIndex image :=
  (untouched.sameHeader same).namesIndex_eq fun _ =>
    untouched.first_number same 4 0x28 (by decide)

theorem identified (h : Identified image) : Identified other :=
  h.of_equalOutside same
    (untouched.header.mono_right (places_subset (Nat.le_refl 0) (by decide)))

theorem tabled (h : Tabled image) : Tabled other := by
  have header := untouched.sameHeader same
  refine ⟨?_, ?_, ?_, ?_, ?_⟩
  · rw [header.entrySize_eq]
    exact h.entrySize_le
  · rw [header.extendedCount_iff, header.tableOffset_eq, ← same.size_eq]
    exact h.countInImage
  · rw [header.extendedNames_iff, header.tableOffset_eq, ← same.size_eq]
    exact h.namesInImage
  · rw [header.tableOffset_eq, untouched.count_eq same, header.entrySize_eq,
      ← same.size_eq]
    exact h.inImage
  · rw [untouched.count_eq same, untouched.namesIndex_eq same]
    exact h.namesIndex_lt

theorem located (h : Located image) : Located other := by
  refine ⟨untouched.identified same h.toIdentified, ?_⟩
  rcases h.table with tableless | tabled
  · exact .inl ((untouched.sameHeader same).tableless_iff.2 tableless)
  · exact .inr (untouched.tabled same tabled)

theorem describes_header {h : Header} (d : h.Describes image) : h.Describes other :=
  (untouched.sameHeader same).describes d (untouched.count_eq same) (untouched.namesIndex_eq same)

/-! ## Entries -/

theorem entry_number {index : Nat} (h : Located image) (lt : index < count image)
    (width offset : Nat) (within : offset + width ≤ 0x28) :
    other.number width (entryOffset other index + offset) =
      image.number width (entryOffset image index + offset) := by
  have place : entryOffset other index = entryOffset image index := by
    unfold entryOffset
    rw [(untouched.sameHeader same).tableOffset_eq, (untouched.sameHeader same).entrySize_eq]
  have first : tableOffset image ≤ entryOffset image index + offset := by
    unfold entryOffset
    omega
  have last : entryOffset image index + offset + width ≤
      tableOffset image + count image * entrySize image := by
    have inTable := h.entry_in_table lt
    omega
  have apart := untouched.table.mono_right (places_subset first last)
  rw [place]
  exact (same.number_eq apart).symm

theorem sameEntry {index : Nat} (h : Located image) (lt : index < count image) :
    SameEntry image other index where
  number_eq width offset within := untouched.entry_number same h lt width offset (by omega)

theorem size_eq {index : Nat} (h : Located image) (lt : index < count image) :
    size other index = size image index :=
  untouched.entry_number same h lt 8 0x20 (by decide)

theorem contained {index : Nat} (h : Located image) (lt : index < count image)
    (within : Contained image index) : Contained other index := by
  rw [(untouched.sameEntry same h lt).contained_iff same.size_eq, untouched.size_eq same h lt]
  exact within

theorem describes_section {index : Nat} {s : Section} (h : Located image)
    (lt : index < count image) (d : s.Describes image index) : s.Describes other index :=
  (untouched.sameEntry same h lt).describes d
    (d.size_eq.trans (untouched.size_eq same h lt).symm)

end

end Stored.Untouched

/-- An image that differs from an indexed one only outside of header and table has the same
records. -/
theorem SectionTable.ofImage_of_equalOutside {changed : Set Nat} {image other : View}
    {t : SectionTable} (indexed : ofImage image = .ok t)
    (untouched : Stored.Untouched changed image)
    (same : View.EqualOutside changed image other) :
    ofImage other = .ok { t with image := other } := by
  obtain ⟨⟨located, contained⟩, d⟩ := ofImage_eq_ok_iff_describes.1 indexed
  have count := untouched.count_eq same
  refine ofImage_eq_ok_iff_describes.2 ⟨⟨untouched.located same located, ?_⟩, rfl, ?_, ?_, ?_⟩
  · intro index lt
    rw [count] at lt
    exact untouched.contained same located lt (contained index lt)
  · exact untouched.describes_header same d.header
  · have entries := (List.forall₂_and_left _ _).2
      ⟨fun index mem => List.mem_range.1 mem, d.sections⟩
    rw [count]
    exact entries.imp fun index s ⟨lt, ds⟩ => untouched.describes_section same located lt ds
  · rw [untouched.namesIndex_eq same]
    exact d.names_eq

/-! ## Names -/

/-- The places of a section's content. -/
def Section.range (s : Section) : Set Nat := places s.fileOffset.toNat s.size.toNat

/-- Names stay where the section that holds them is not changed. -/
theorem SectionTable.name_eq_of_equalOutside {changed : Set Nat} {t : SectionTable}
    (t' : SectionTable) (same : View.EqualOutside changed t.image t'.image)
    (names : t'.names = t.names)
    (apart : ∀ holder, t.names = some holder → Disjoint changed holder.range) (s : Section) :
    t'.name s = t.name s := by
  unfold name
  rw [names]
  cases held : t.names with
  | none => rfl
  | some holder =>
    have table := same.slice_eq (apart holder held)
    simp only [table, same.size_eq]

end CodeSpans.Elf
