import CodeSpans.Proofs.Elf.Stored

/-!
# Reading the header

The answer to an image whose file header is there, in full (`Header.exists_read_eq`): what is checked
one after the other, by the fields that the image stores. From it follows which images have a header,
and that it is the one that describes them (`Header.read_eq_ok_iff`).
-/

namespace CodeSpans.Elf

/-! ## The parts of the header -/

section

variable {image : View}

theorem Header.checkTable_eq_ok_iff {h : Header} {u : Unit} :
    h.checkTable image = .ok u ↔ h.tableOffset.toNat + h.tableSize ≤ image.size := by
  unfold checkTable located
  rw [Answer.bind_eq_ok_iff]
  constructor
  · rintro ⟨table, htable, -⟩
    exact (View.slice_eq_ok_iff.1 (Answer.mapError_eq_ok_iff.1 htable)).1
  · intro within
    exact ⟨_, Answer.mapError_eq_ok_iff.2 (View.slice_eq_ok within), rfl⟩

theorem Header.readEntryCount_eq_ok_iff {tableOffset : UInt64} {count : UInt16} {n : UInt64} :
    readEntryCount (.exact image) tableOffset count = .ok n ↔
      (count.toNat = 0 → tableOffset.toNat + 0x20 + 8 ≤ image.size) ∧
      n.toNat = if count.toNat = 0 then image.number 8 (tableOffset.toNat + 0x20)
        else count.toNat := by
  unfold readEntryCount Reads.exact located
  have zero : count = 0 ↔ count.toNat = 0 := UInt16.toNat_inj.symm
  by_cases extended : count.toNat = 0
  · rw [if_pos (zero.2 extended), if_pos extended, Answer.mapError_eq_ok_iff,
      View.word64_eq_ok_iff, imp_iff_right extended]
  · rw [if_neg (mt zero.1 extended), if_neg extended, Answer.pure_eq_ok_iff, ← UInt64.toNat_inj,
      and_iff_right fun h => absurd h extended, UInt16.toNat_toUInt64, eq_comm]

theorem Header.readNamesIndex_eq_ok_iff {tableOffset : UInt64} {index : UInt16} {n : UInt32} :
    readNamesIndex (.exact image) tableOffset index = .ok n ↔
      (index.toNat = 0xffff → tableOffset.toNat + 0x28 + 4 ≤ image.size) ∧
      n.toNat = if index.toNat = 0xffff then image.number 4 (tableOffset.toNat + 0x28)
        else index.toNat := by
  unfold readNamesIndex Reads.exact located
  have greatest : index = extendedIndex ↔ index.toNat = 0xffff := UInt16.toNat_inj.symm
  by_cases extended : index.toNat = 0xffff
  · rw [if_pos (greatest.2 extended), if_pos extended, Answer.mapError_eq_ok_iff,
      View.word32_eq_ok_iff, imp_iff_right extended]
  · rw [if_neg (mt greatest.1 extended), if_neg extended, Answer.pure_eq_ok_iff,
      ← UInt32.toNat_inj,
      and_iff_right fun h => absurd h extended, UInt16.toNat_toUInt32, eq_comm]

end

theorem Stored.count_lt (image : View) : Stored.count image < 2 ^ 64 := by
  have plain := View.number_lt image 2 0x3c
  have extended := View.number_lt image 8 (Stored.tableOffset image + 0x20)
  unfold Stored.count
  split_ifs <;> omega

theorem Stored.namesIndex_lt (image : View) : Stored.namesIndex image < 2 ^ 32 := by
  have plain := View.number_lt image 2 0x3e
  have extended := View.number_lt image 4 (Stored.tableOffset image + 0x28)
  unfold Stored.namesIndex
  split_ifs <;> omega

theorem Header.exists_describes (image : View) : ∃ h : Header, h.Describes image :=
  ⟨⟨.ofNat (image.number 2 0x12), .ofNat (Stored.tableOffset image),
      .ofNat (Stored.entrySize image), .ofNat (Stored.count image), .ofNat (Stored.namesIndex image)⟩,
    UInt16.toNat_ofNat_of_lt (View.number_lt image 2 0x12),
    UInt64.toNat_ofNat_of_lt (View.number_lt image 8 0x28),
    UInt16.toNat_ofNat_of_lt (View.number_lt image 2 0x3a),
    UInt64.toNat_ofNat_of_lt (Stored.count_lt image),
    UInt32.toNat_ofNat_of_lt (Stored.namesIndex_lt image)⟩

/-! ## What is answered -/

/-- Of the places that are read to find the table, and of the table, the first that leaves the
image. -/
def Stored.beyond? (image : View) : Option Overrun :=
  if ExtendedCount image ∧ image.size < tableOffset image + 0x20 + 8 then
    some ⟨tableOffset image + 0x20, 8, image.size⟩
  else if ExtendedNames image ∧ image.size < tableOffset image + 0x28 + 4 then
    some ⟨tableOffset image + 0x28, 4, image.size⟩
  else if image.size < tableOffset image + count image * entrySize image then
    some ⟨tableOffset image, count image * entrySize image, image.size⟩
  else none

theorem Stored.beyond?_eq_none_iff {image : View} :
    beyond? image = none ↔
      (ExtendedCount image → tableOffset image + 0x20 + 8 ≤ image.size) ∧
      (ExtendedNames image → tableOffset image + 0x28 + 4 ≤ image.size) ∧
      tableOffset image + count image * entrySize image ≤ image.size := by
  unfold beyond?
  grind

namespace Header

/-- The answer where the table is in the image: the index of the names must be one of its entries. -/
def checkNamesIndex (h : Header) : Except Error Header :=
  if h.entryCount ≠ 0 ∧ h.entryCount.toNat ≤ h.namesIndex.toNat then
    .error (.namesIndexOutOfRange h.namesIndex h.entryCount)
  else .ok h

theorem checkNamesIndex_eq_ok_iff {h h' : Header} :
    h'.checkNamesIndex = .ok h ↔
      (h'.entryCount.toNat = 0 ∨ h'.namesIndex.toNat < h'.entryCount.toNat) ∧ h' = h := by
  have zero : h'.entryCount = 0 ↔ h'.entryCount.toNat = 0 := UInt64.toNat_inj.symm
  unfold checkNamesIndex
  by_cases outside : h'.entryCount ≠ 0 ∧ h'.entryCount.toNat ≤ h'.namesIndex.toNat
  · rw [if_pos outside]
    rw [Ne, zero] at outside
    exact iff_of_false nofun fun h => by omega
  · rw [if_neg outside, Except.ok.injEq]
    rw [Ne, zero] at outside
    exact (and_iff_right (by omega)).symm

/-- The index of the names is part of either answer. -/
theorem namesIndex_eq_of_checkNamesIndex {h h' : Header}
    (same : h.checkNamesIndex = h'.checkNamesIndex) : h.namesIndex = h'.namesIndex := by
  unfold checkNamesIndex at same
  split_ifs at same
  · exact (Error.namesIndexOutOfRange.inj (Except.error.inj same)).1
  · exact congrArg Header.namesIndex (Except.ok.inj same)

section

variable {image : View} {h : Header}

theorem Describes.readEntryCount_eq (d : h.Describes image) (tabled : ¬Stored.Tableless image)
    {count : UInt16} (count_eq : count.toNat = image.number 2 0x3c) :
    readEntryCount (.exact image) h.tableOffset count =
      if Stored.ExtendedCount image ∧ image.size < Stored.tableOffset image + 0x20 + 8 then
        .error (.truncated (Overrun.capped ⟨Stored.tableOffset image + 0x20, 8, image.size⟩))
      else .ok h.entryCount := by
  rw [← d.tableOffset_eq]
  by_cases beyond :
      Stored.ExtendedCount image ∧ image.size < h.tableOffset.toNat + 0x20 + 8
  · have extended : count = 0 := UInt16.toNat_inj.1 (count_eq.trans beyond.1)
    rw [readEntryCount, if_pos beyond, if_pos extended]
    show located (image.word64 _) = _
    rw [View.word64, View.word_eq_error beyond.2]
    rfl
  · rw [if_neg beyond, readEntryCount_eq_ok_iff]
    refine ⟨fun extended => ?_, ?_⟩
    · exact Nat.not_lt.1 fun outside => beyond ⟨count_eq.symm.trans extended, outside⟩
    · rw [d.entryCount_eq, Stored.count, if_neg tabled, count_eq, d.tableOffset_eq]
      rfl

theorem Describes.readNamesIndex_eq (d : h.Describes image) (tabled : ¬Stored.Tableless image)
    {index : UInt16} (index_eq : index.toNat = image.number 2 0x3e) :
    readNamesIndex (.exact image) h.tableOffset index =
      if Stored.ExtendedNames image ∧ image.size < Stored.tableOffset image + 0x28 + 4 then
        .error (.truncated (Overrun.capped ⟨Stored.tableOffset image + 0x28, 4, image.size⟩))
      else .ok h.namesIndex := by
  rw [← d.tableOffset_eq]
  by_cases beyond :
      Stored.ExtendedNames image ∧ image.size < h.tableOffset.toNat + 0x28 + 4
  · have extended : index = extendedIndex := UInt16.toNat_inj.1 (index_eq.trans beyond.1)
    rw [readNamesIndex, if_pos beyond, if_pos extended]
    show located (image.word32 _) = _
    rw [View.word32, View.word_eq_error beyond.2]
    rfl
  · rw [if_neg beyond, readNamesIndex_eq_ok_iff]
    refine ⟨fun extended => ?_, ?_⟩
    · exact Nat.not_lt.1 fun outside => beyond ⟨index_eq.symm.trans extended, outside⟩
    · rw [d.namesIndex_eq, Stored.namesIndex, if_neg tabled, index_eq, d.tableOffset_eq]
      rfl

theorem Describes.checkTable_eq (d : h.Describes image) :
    (Reads.exact image).checkTable h =
      if image.size < Stored.tableOffset image + Stored.count image * Stored.entrySize image then
        .error (.truncated (Overrun.capped ⟨Stored.tableOffset image,
          Stored.count image * Stored.entrySize image, image.size⟩))
      else .ok () := by
  rw [← d.tableOffset_eq, ← d.entryCount_eq, ← d.entrySize_eq]
  change h.checkTable image = if image.size < h.tableOffset.toNat + h.tableSize then _ else _
  by_cases beyond : image.size < h.tableOffset.toNat + h.tableSize
  · unfold checkTable located
    rw [if_pos beyond, View.slice_eq_error beyond]
    rfl
  · rw [if_neg beyond, checkTable_eq_ok_iff]
    exact Nat.not_lt.1 beyond

/-- The answer to an image whose file header is there, by the fields that it stores. -/
theorem exists_read_eq (full : 0x40 ≤ image.size) :
    ∃ h : Header, h.Describes image ∧ Header.read image =
      if Stored.Tableless image then .ok h
      else if Stored.entrySize image < 0x28 then .error (.entrySizeTooSmall h.entrySize)
      else match Stored.beyond? image with
        | some overrun => .error (.truncated overrun.capped)
        | none => h.checkNamesIndex := by
  obtain ⟨h, d⟩ := Header.exists_describes image
  refine ⟨h, d, ?_⟩
  have htable : (Reads.exact image).word64 0x28 = .ok h.tableOffset :=
    lift_eq_ok_iff.2 (View.word64_eq_ok_iff.2 ⟨by omega, d.tableOffset_eq⟩)
  have hentry : (Reads.exact image).word16 0x3a = .ok h.entrySize :=
    lift_eq_ok_iff.2 (View.word16_eq_ok_iff.2 ⟨by omega, d.entrySize_eq⟩)
  have hmachine : (Reads.exact image).word16 0x12 = .ok h.machine :=
    lift_eq_ok_iff.2 (View.word16_eq_ok_iff.2 ⟨by omega, d.machine_eq⟩)
  obtain ⟨count, hcount⟩ : ∃ w, image.word16 0x3c = .ok w := View.exists_word (by omega)
  obtain ⟨index, hindex⟩ : ∃ w, image.word16 0x3e = .ok w := View.exists_word (by omega)
  have count_eq := (View.word16_eq_ok_iff.1 hcount).2
  have index_eq := (View.word16_eq_ok_iff.1 hindex).2
  have tableless_iff : h.tableOffset = 0 ∧ count = 0 ↔ Stored.Tableless image := by
    rw [Stored.Tableless, ← d.tableOffset_eq, ← count_eq]
    exact and_congr UInt64.toNat_inj.symm UInt16.toNat_inj.symm
  have hcount' : (Reads.exact image).word16 0x3c = .ok count := lift_eq_ok_iff.2 hcount
  have hindex' : (Reads.exact image).word16 0x3e = .ok index := lift_eq_ok_iff.2 hindex
  unfold Header.read readBy
  simp only [htable, hentry, hcount', hindex', hmachine, Answer.ok_bind]
  rw [if_congr tableless_iff rfl rfl]
  by_cases tableless : Stored.Tableless image
  · have none : Header.Describes image ⟨h.machine, h.tableOffset, h.entrySize, 0, 0⟩ := by
      refine ⟨d.machine_eq, d.tableOffset_eq, d.entrySize_eq, ?_, ?_⟩
      · rw [Stored.count, if_pos tableless]
        rfl
      · rw [Stored.namesIndex, if_pos tableless]
        rfl
    rw [if_pos tableless, if_pos tableless]
    exact congrArg Except.ok (none.unique d)
  rw [if_neg tableless, if_neg tableless, d.entrySize_eq]
  by_cases small : Stored.entrySize image < 0x28
  · rw [if_pos small]
    exact if_pos small
  · rw [if_neg small]
    refine (if_neg small).trans ?_
    rw [d.readEntryCount_eq tableless count_eq, Answer.refuse_bind, Answer.ok_bind,
      d.readNamesIndex_eq tableless index_eq, Answer.refuse_bind, Answer.ok_bind, d.checkTable_eq,
      Answer.refuse_bind, Answer.ok_bind]
    unfold Stored.beyond? checkNamesIndex
    split_ifs <;> rfl

/-- The fields are read just when there is no table, or one that can be found, and then they are
those of the image. -/
theorem read_eq_ok_iff (full : 0x40 ≤ image.size) :
    Header.read image = .ok h ↔
      (Stored.Tableless image ∨ Stored.Tabled image) ∧ h.Describes image := by
  obtain ⟨h', d', answer⟩ := exists_read_eq full
  rw [answer]
  by_cases tableless : Stored.Tableless image
  · rw [if_pos tableless, Except.ok.injEq, d'.eq_iff, and_iff_right (.inl tableless)]
  rw [if_neg tableless, or_iff_right tableless]
  by_cases small : Stored.entrySize image < 0x28
  · rw [if_pos small]
    exact iff_of_false nofun fun h => absurd h.1.entrySize_le (Nat.not_le.2 small)
  rw [if_neg small]
  cases reads : Stored.beyond? image with
  | some overrun =>
    refine iff_of_false nofun fun h => ?_
    have tabled := h.1
    have none := Stored.beyond?_eq_none_iff.2
      ⟨tabled.countInImage, tabled.namesInImage, tabled.inImage⟩
    rw [reads] at none
    cases none
  | none =>
    obtain ⟨countInImage, namesInImage, inImage⟩ := Stored.beyond?_eq_none_iff.1 reads
    rw [checkNamesIndex_eq_ok_iff, d'.entryCount_eq, d'.namesIndex_eq, d'.eq_iff]
    refine and_congr_left' ⟨fun below => ?_, Stored.Tabled.namesIndex_lt⟩
    exact ⟨Nat.not_lt.1 small, countInImage, namesInImage, inImage, below⟩

end

end Header

end CodeSpans.Elf
