import CodeSpans.Proofs.Elf.Overwriting
import CodeSpans.Proofs.Elf.Untouched

/-!
# How far reading the header reaches

With extended numbering, fields of the header are kept in entry 0. The smallest entry that is
accepted ends where the link field begins, so that field can lie outside of entry 0
(`Stored.StrayLink`). Other than that, the file header and entry 0 determine the header, or why
there is none (`Header.read_eq_of_front_iff`).
-/

namespace CodeSpans.Elf

/-! ## What the answer depends on -/

namespace Stored

/-- The places of the file header and of entry 0. -/
def front (image : View) : Set Nat :=
  places 0 0x40 ∪ places (tableOffset image) (entrySize image)

/-- The link field is read, and it goes on behind entry 0 and behind the file header. The entry is
not refused for its size, and nothing else that is checked leaves the image. -/
structure StrayLink (image : View) : Prop where
  hasTable : ¬Tableless image
  extended : ExtendedNames image
  entrySize_le : 0x28 ≤ entrySize image
  entrySize_lt : entrySize image < 0x2c
  behind : 0x40 < tableOffset image + 0x2c
  linkInImage : tableOffset image + 0x2c ≤ image.size
  inImage : tableOffset image + count image * entrySize image ≤ image.size

section

variable {image other : View} (same : View.EqualOutside (front image)ᶜ image other)

include same

theorem number_eq_of_front {width offset : Nat} (within : places offset width ⊆ front image) :
    other.number width offset = image.number width offset :=
  (same.number_eq (Set.disjoint_compl_left_iff_subset.2 within)).symm

theorem sameHeader_of_front : SameHeader image other where
  number_eq _ offset within := number_eq_of_front same
    ((places_subset (Nat.zero_le offset) (by omega)).trans Set.subset_union_left)

theorem first_number_of_front (width offset : Nat) (within : offset + width ≤ entrySize image) :
    other.number width (tableOffset image + offset) =
      image.number width (tableOffset image + offset) :=
  number_eq_of_front same
    ((places_subset (Nat.le_add_right _ offset) (by omega)).trans Set.subset_union_right)

theorem count_eq_of_front (large : 0x28 ≤ entrySize image) : count other = count image :=
  (sameHeader_of_front same).count_eq (first_number_of_front same 8 0x20 large)

/-- The link field is in entry 0 or in the file header, unless it strays. -/
theorem namesIndex_eq_of_front
    (reached : ExtendedNames image → 0x2c ≤ entrySize image ∨ tableOffset image + 0x2c ≤ 0x40) :
    namesIndex other = namesIndex image := by
  refine (sameHeader_of_front same).namesIndex_eq fun extended => ?_
  rcases reached extended with large | inHeader
  · exact first_number_of_front same 4 0x28 large
  · exact (sameHeader_of_front same).number_eq 4 _ (by omega)

end

theorem beyond?_eq {image other : View} (header : SameHeader image other)
    (size : other.size = image.size) (same : count other = count image) :
    beyond? other = beyond? image := by
  unfold beyond?
  simp only [header.extendedCount_iff, header.extendedNames_iff, header.tableOffset_eq,
    header.entrySize_eq, size, same]

/-- Reading that makes use of a link field outside of entry 0 and of the file header strays. -/
theorem strayLink_of_beyond?_eq_none {image : View} (hasTable : ¬Tableless image)
    (large : 0x28 ≤ entrySize image) (reads : beyond? image = none)
    (outside : ¬(ExtendedNames image →
      0x2c ≤ entrySize image ∨ tableOffset image + 0x2c ≤ 0x40)) : StrayLink image := by
  obtain ⟨extended, outside⟩ := Classical.not_imp.1 outside
  obtain ⟨-, linkInImage, inImage⟩ := beyond?_eq_none_iff.1 reads
  exact ⟨hasTable, extended, large, by omega, by omega, linkInImage extended, inImage⟩

theorem StrayLink.beyond?_eq_none {image : View} (strays : StrayLink image) :
    beyond? image = none := by
  have linkInImage := strays.linkInImage
  exact beyond?_eq_none_iff.2 ⟨fun _ => by omega, fun _ => linkInImage, strays.inImage⟩

end Stored

namespace Header

section

variable {image other : View} (same : View.EqualOutside (Stored.front image)ᶜ image other)

include same

/-- Where the file header is cut off, no field of it is read. -/
theorem read_eq_of_short (short : image.size < 0x40) : read other = read image := by
  have apart : ∀ width offset, offset + width ≤ 0x40 →
      Disjoint (Stored.front image)ᶜ (places offset width) := fun width offset within =>
    Set.disjoint_compl_left_iff_subset.2
      ((places_subset (Nat.zero_le offset) (by omega)).trans Set.subset_union_left)
  have tableOffset : (Reads.exact other).word64 0x28 = (Reads.exact image).word64 0x28 := by
    have word := same.word_eq (apart 8 0x28 (by decide))
    exact congrArg (fun read => (read.map Nat.toUInt64).mapError Error.truncated) word.symm
  have field : ∀ offset, offset + 2 ≤ 0x40 →
      (Reads.exact other).word16 offset = (Reads.exact image).word16 offset := by
    intro offset within
    have word := same.word_eq (apart 2 offset within)
    exact congrArg (fun read => (read.map Nat.toUInt16).mapError Error.truncated) word.symm
  have index : ∀ view : View, view.size = image.size →
      (Reads.exact view).word16 0x3e = .error (.truncated ⟨0x3e, 2, image.size⟩) := by
    intro view size
    have beyond : view.word 2 0x3e = .error ⟨0x3e, 2, view.size⟩ := View.word_eq_error (by omega)
    rw [size] at beyond
    exact congrArg (fun read => (read.map Nat.toUInt16).mapError Error.truncated) beyond
  unfold read readBy
  rw [tableOffset, field 0x3a (by decide), field 0x3c (by decide), index image rfl,
    index other same.size_eq.symm]
  cases (Reads.exact image).word64 0x28 with
  | error e => rfl
  | ok tableOffset =>
    cases (Reads.exact image).word16 0x3a with
    | error e => rfl
    | ok entrySize =>
      cases (Reads.exact image).word16 0x3c with
      | error e => rfl
      | ok count => rfl

theorem read_eq_of_front (reached : ¬Stored.StrayLink image) : read other = read image := by
  rcases Nat.lt_or_ge image.size 0x40 with short | full
  · exact read_eq_of_short same short
  have full' : 0x40 ≤ other.size := by rwa [← same.size_eq]
  have header := Stored.sameHeader_of_front same
  obtain ⟨h, d, answer⟩ := exists_read_eq full
  obtain ⟨h', d', answer'⟩ := exists_read_eq full'
  have size_eq := d'.entrySize_eq.trans (header.entrySize_eq.trans d.entrySize_eq.symm)
  rw [answer, answer', if_congr header.tableless_iff rfl rfl, header.entrySize_eq,
    UInt16.toNat_inj.1 size_eq]
  by_cases tableless : Stored.Tableless image
  · have tableless' := header.tableless_iff.2 tableless
    have described := header.describes d
      (by rw [Stored.count, Stored.count, if_pos tableless, if_pos tableless'])
      (by rw [Stored.namesIndex, Stored.namesIndex, if_pos tableless, if_pos tableless'])
    rw [if_pos tableless, if_pos tableless, d'.unique described]
  rw [if_neg tableless, if_neg tableless]
  by_cases small : Stored.entrySize image < 0x28
  · rw [if_pos small, if_pos small]
  have large := Nat.not_lt.1 small
  have count := Stored.count_eq_of_front same large
  rw [if_neg small, if_neg small, Stored.beyond?_eq header same.size_eq.symm count]
  cases inImage : Stored.beyond? image with
  | some overrun => rfl
  | none =>
    have reaches := Classical.not_not.1 fun outside =>
      reached (Stored.strayLink_of_beyond?_eq_none tableless large inImage outside)
    have names := Stored.namesIndex_eq_of_front same reaches
    rw [d'.unique (header.describes d count names)]

/-- What the link field says is part of the answer, also where it strays. -/
theorem link_eq_of_read_eq (strays : Stored.StrayLink image) (answers : read other = read image) :
    other.number 4 (Stored.tableOffset image + 0x28) =
      image.number 4 (Stored.tableOffset image + 0x28) := by
  have inImage := strays.beyond?_eq_none
  obtain ⟨hasTable, extended, large, -, behind, linkInImage, -⟩ := strays
  have full : 0x40 ≤ image.size := by omega
  have full' : 0x40 ≤ other.size := by rwa [← same.size_eq]
  have header := Stored.sameHeader_of_front same
  have hasTable' := mt header.tableless_iff.1 hasTable
  obtain ⟨h, d, answer⟩ := exists_read_eq full
  obtain ⟨h', d', answer'⟩ := exists_read_eq full'
  rw [answer, answer', if_neg hasTable', if_neg hasTable, header.entrySize_eq,
    if_neg (Nat.not_lt.2 large), if_neg (Nat.not_lt.2 large),
    Stored.beyond?_eq header same.size_eq.symm (Stored.count_eq_of_front same large),
    inImage] at answers
  have index := congrArg UInt32.toNat (namesIndex_eq_of_checkNamesIndex answers)
  rw [d'.namesIndex_eq, d.namesIndex_eq, Stored.namesIndex, Stored.namesIndex, if_neg hasTable',
    if_neg hasTable, if_pos (header.extendedNames_iff.2 extended), if_pos extended,
    header.tableOffset_eq] at index
  exact index

end

theorem exists_read_ne {image : View} (strays : Stored.StrayLink image) :
    ∃ other, View.EqualOutside (Stored.front image)ᶜ image other ∧ read other ≠ read image := by
  have short := strays.entrySize_lt
  have behind := strays.behind
  have linkInImage := strays.linkInImage
  -- the last byte of the field is neither in the file header nor in entry 0
  let last := Stored.tableOffset image + 0x28 + 3
  obtain ⟨b, found⟩ : ∃ b, image.toList[last]? = some b :=
    ⟨_, List.getElem?_eq_getElem (by rw [View.length_toList]; omega)⟩
  let other := overwrite image last [b + 1]
  have outside : places last 1 ⊆ (Stored.front image)ᶜ := by
    rintro i ⟨first, -⟩ (⟨-, inHeader⟩ | ⟨-, inEntry⟩)
    · omega
    · omega
  have same : View.EqualOutside (Stored.front image)ᶜ image other :=
    (equalOutside_overwrite image last [b + 1]).mono outside
  refine ⟨other, same, fun answers => ?_⟩
  have link := link_eq_of_read_eq same strays answers
  have kept := View.byte_eq_of_number_eq same.size_eq.symm link (i := 3) (by decide)
  have written : other.toList[last + 0]? = [b + 1][0]? :=
    getElem?_overwrite linkInImage Nat.one_pos
  have changed : b + 1 = b := Option.some_inj.1 (written.symm.trans (kept.trans found))
  simp at changed

/-- **What the header depends on.** Two images of one size with the same file header and the same
entry 0 are answered alike, whatever else they hold, just where the link field does not stray out of
both. -/
theorem read_eq_of_front_iff (image : View) :
    (∀ other, View.EqualOutside (Stored.front image)ᶜ image other → read other = read image) ↔
      ¬Stored.StrayLink image := by
  constructor
  · intro determined strays
    obtain ⟨other, same, differs⟩ := exists_read_ne strays
    exact differs (determined other same)
  · intro reached other same
    exact read_eq_of_front same reached

/-- The entries of a built image hold all that is read. With the smallest entries that are accepted,
a link field in use is not among what two images have to share to be answered alike. -/
theorem read_eq_of_front_iff_of_short_entries :
    (∀ other, View.EqualOutside (Stored.front (Image.mk machineX86_64 []).toView)ᶜ
        (Image.mk machineX86_64 []).toView other →
      read other = read (Image.mk machineX86_64 []).toView) ∧
    ∃ image other, Stored.entrySize image = 0x28 ∧
      View.EqualOutside (Stored.front image)ᶜ image other ∧ read other ≠ read image := by
  let built := (Image.mk machineX86_64 []).toView
  let image := View.ofList
    ((((Image.mk machineX86_64 []).toBytes.set 0x3a 0x28).set 0x3e 0xff).set 0x3f 0xff)
  have full : Stored.entrySize built = 0x40 := by decide +kernel
  have short : Stored.entrySize image = 0x28 := by decide +kernel
  have strays : Stored.StrayLink image := by
    refine ⟨?_, ?_, short.ge, short.le.trans_lt (by decide), ?_, ?_, ?_⟩
    all_goals decide +kernel
  constructor
  · refine (read_eq_of_front_iff built).2 fun strays => ?_
    have bound := strays.entrySize_lt
    omega
  · have undetermined := mt (read_eq_of_front_iff image).1 (not_not_intro strays)
    obtain ⟨other, undetermined⟩ := Classical.not_forall.1 undetermined
    obtain ⟨same, differs⟩ := Classical.not_imp.1 undetermined
    exact ⟨image, other, short, same, differs⟩

end Header

end CodeSpans.Elf
