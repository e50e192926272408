import CodeSpans.Proofs.Elf.Table

/-!
# What an image stores

The fields of an image as numbers at places, and the conditions on them under which an image has a
table (`Stored.Located`) and a section has its content (`Stored.Contained`). All sums and products
are of numbers and so are exact. A header and a record describe an image when their fields are these
numbers (`Header.Describes`, `Section.Describes`). A record is read just when its content is in the
image (`Section.read_eq_ok_iff_contained`).
-/

namespace CodeSpans.Elf

namespace Stored

variable (image : View)

/-- The file header is there in full and identifies a 64-bit little-endian image. -/
structure Identified : Prop where
  full : 0x40 ≤ image.size
  magic : image.toList.take 4 = [0x7f, 0x45, 0x4c, 0x46]
  class64 : image.number 1 4 = 2
  littleEndian : image.number 1 5 = 1

def tableOffset : Nat := image.number 8 0x28

def entrySize : Nat := image.number 2 0x3a

/-- The file header says that there is no table. -/
def Tableless : Prop := tableOffset image = 0 ∧ image.number 2 0x3c = 0

/-- The count of the sections is kept in entry 0. -/
def ExtendedCount : Prop := image.number 2 0x3c = 0

/-- The index of the names is kept in entry 0. -/
def ExtendedNames : Prop := image.number 2 0x3e = 0xffff

instance : Decidable (Tableless image) := inferInstanceAs (Decidable (_ ∧ _))

instance : Decidable (ExtendedCount image) := inferInstanceAs (Decidable (_ = _))

instance : Decidable (ExtendedNames image) := inferInstanceAs (Decidable (_ = _))

def count : Nat :=
  if Tableless image then 0
  else if ExtendedCount image then image.number 8 (tableOffset image + 0x20)
  else image.number 2 0x3c

def namesIndex : Nat :=
  if Tableless image then 0
  else if ExtendedNames image then image.number 4 (tableOffset image + 0x28)
  else image.number 2 0x3e

/-- There is a table, and it and what is read to find it are in the image. -/
structure Tabled : Prop where
  entrySize_le : 0x28 ≤ entrySize image
  countInImage : ExtendedCount image → tableOffset image + 0x20 + 8 ≤ image.size
  namesInImage : ExtendedNames image → tableOffset image + 0x28 + 4 ≤ image.size
  inImage : tableOffset image + count image * entrySize image ≤ image.size
  namesIndex_lt : count image = 0 ∨ namesIndex image < count image

/-- All that an image must be, apart from the contents of its sections. -/
structure Located : Prop extends Identified image where
  table : Tableless image ∨ Tabled image

variable (index : Nat)

def entryOffset : Nat := tableOffset image + index * entrySize image

def nameOffset : Nat := image.number 4 (entryOffset image index)

def kind : Nat := image.number 4 (entryOffset image index + 0x04)

def flags : Nat := image.number 8 (entryOffset image index + 0x08)

def fileOffset : Nat := image.number 8 (entryOffset image index + 0x18)

def size : Nat := image.number 8 (entryOffset image index + 0x20)

/-- The content of a section is in the image, unless the section has none. -/
def Contained : Prop :=
  kind image index ≠ 8 → fileOffset image index + size image index ≤ image.size

instance : Decidable (Contained image index) := inferInstanceAs (Decidable (_ → _))

end Stored

/-- A header has the fields of an image, extended numbering resolved. -/
structure Header.Describes (image : View) (h : Header) : Prop where
  machine_eq : h.machine.toNat = image.number 2 0x12
  tableOffset_eq : h.tableOffset.toNat = Stored.tableOffset image
  entrySize_eq : h.entrySize.toNat = Stored.entrySize image
  entryCount_eq : h.entryCount.toNat = Stored.count image
  namesIndex_eq : h.namesIndex.toNat = Stored.namesIndex image

/-- A record has the fields of an entry. -/
structure Section.Describes (image : View) (index : Nat) (s : Section) : Prop where
  index_eq : s.index = index
  nameOffset_eq : s.nameOffset.toNat = Stored.nameOffset image index
  kind_eq : s.kind.toNat = Stored.kind image index
  flags_eq : s.flags.toNat = Stored.flags image index
  fileOffset_eq : s.fileOffset.toNat = Stored.fileOffset image index
  size_eq : s.size.toNat = Stored.size image index
  isExecutable_iff :
    s.isExecutable ↔ Stored.kind image index = 1 ∧ Stored.flags image index &&& 4 ≠ 0

section

variable {image : View} {s : Section}

/-! ## The file header -/

theorem checkIdentification_eq_ok_iff :
    checkIdentification image = .ok () ↔ Stored.Identified image := by
  unfold checkIdentification
  simp only [Answer.bind_eq_ok_iff, Answer.refuse_eq_ok_iff, lift_eq_ok_iff, View.slice_eq_ok_iff,
    View.byte_eq_ok_iff, Answer.refuse_last_eq_ok_iff, not_not]
  have cut : ((image.toList.drop 0).take headerSize).take magic.length = image.toList.take 4 := by
    rw [List.drop_zero, List.take_take]
    rfl
  constructor
  · rintro ⟨header, ⟨full, same⟩, isMagic, classByte, ⟨-, hclass⟩, rfl, encoding, ⟨-, hencoding⟩, rfl⟩
    rw [same, cut] at isMagic
    have full : 0x40 ≤ image.size := by simpa [headerSize] using full
    exact ⟨full, isMagic, hclass.symm, hencoding.symm⟩
  · intro identified
    have full := identified.full
    obtain ⟨header, hheader⟩ : ∃ w, image.slice 0 headerSize = .ok w :=
      ⟨_, View.slice_eq_ok (by rw [Nat.zero_add]; exact full)⟩
    have inside := View.slice_eq_ok_iff.1 hheader
    refine ⟨header, inside, ?_, class64, ⟨by omega, identified.class64.symm⟩, rfl,
      littleEndian, ⟨by omega, identified.littleEndian.symm⟩, rfl⟩
    rw [inside.2, cut]
    exact identified.magic

theorem Header.Describes.unique {h h' : Header} (d : h.Describes image) (d' : h'.Describes image) :
    h = h' := by
  have machine := UInt16.toNat_inj.1 (d.machine_eq.trans d'.machine_eq.symm)
  have tableOffset := UInt64.toNat_inj.1 (d.tableOffset_eq.trans d'.tableOffset_eq.symm)
  have entrySize := UInt16.toNat_inj.1 (d.entrySize_eq.trans d'.entrySize_eq.symm)
  have entryCount := UInt64.toNat_inj.1 (d.entryCount_eq.trans d'.entryCount_eq.symm)
  have namesIndex := UInt32.toNat_inj.1 (d.namesIndex_eq.trans d'.namesIndex_eq.symm)
  cases h
  cases h'
  simp_all

theorem Header.Describes.eq_iff {h h' : Header} (d : h.Describes image) :
    h = h' ↔ h'.Describes image := by
  constructor
  · rintro rfl
    exact d
  · exact d.unique

/-! ## Entries -/

theorem Header.Describes.entryOffset_eq {h : Header} (d : h.Describes image) (index : Nat) :
    h.entryOffset index = Stored.entryOffset image index := by
  rw [entryOffset, d.tableOffset_eq, d.entrySize_eq]
  rfl

theorem Section.holdsCode_iff {kind : UInt32} {flags : UInt64} :
    holdsCode kind flags ↔ kind.toNat = 1 ∧ flags.toNat &&& 4 ≠ 0 := by
  have isProgBits : kind = progBits ↔ kind.toNat = 1 := UInt32.toNat_inj.symm
  have isExec : flags &&& flagExec = 0 ↔ flags.toNat &&& 4 = 0 := by
    rw [← UInt64.toNat_inj, UInt64.toNat_and]
    rfl
  rw [holdsCode, Bool.and_eq_true, beq_iff_eq, bne_iff_ne, Ne, isProgBits, isExec]

variable {index : Nat}

theorem Section.Describes.unique {s' : Section} (d : s.Describes image index)
    (d' : s'.Describes image index) : s = s' := by
  have nameOffset := UInt32.toNat_inj.1 (d.nameOffset_eq.trans d'.nameOffset_eq.symm)
  have kind := UInt32.toNat_inj.1 (d.kind_eq.trans d'.kind_eq.symm)
  have flags := UInt64.toNat_inj.1 (d.flags_eq.trans d'.flags_eq.symm)
  have fileOffset := UInt64.toNat_inj.1 (d.fileOffset_eq.trans d'.fileOffset_eq.symm)
  have size := UInt64.toNat_inj.1 (d.size_eq.trans d'.size_eq.symm)
  have isExecutable := Bool.eq_iff_iff.2 (d.isExecutable_iff.trans d'.isExecutable_iff.symm)
  have index_eq := d.index_eq.trans d'.index_eq.symm
  cases s
  cases s'
  simp_all

theorem Section.Describes.kind_eq_noBits_iff (d : s.Describes image index) :
    s.kind = noBits ↔ Stored.kind image index = 8 := by
  rw [← d.kind_eq]
  exact UInt32.toNat_inj.symm

theorem Section.Describes.content_eq_error (d : s.Describes image index)
    (h : ¬Stored.Contained image index) :
    s.content image =
      .error (.truncated ⟨Stored.fileOffset image index, Stored.size image index, image.size⟩) := by
  obtain ⟨hasContent, beyond⟩ := Classical.not_imp.1 h
  rw [Ne, ← d.kind_eq_noBits_iff] at hasContent
  rw [content_of_kind_ne hasContent, d.fileOffset_eq, d.size_eq,
    View.slice_eq_error (Nat.not_le.1 beyond)]
  rfl

theorem Section.Describes.exists_content (d : s.Describes image index)
    (h : Stored.Contained image index) : ∃ code, s.content image = .ok code := by
  by_cases reserved : s.kind = noBits
  · exact ⟨.empty, content_of_noBits reserved⟩
  · have within := h (mt d.kind_eq_noBits_iff.2 reserved)
    rw [← d.fileOffset_eq, ← d.size_eq] at within
    rw [content_of_kind_ne reserved]
    exact ⟨_, lift_eq_ok_iff.2 (View.slice_eq_ok within)⟩

/-- An entry that lies in the image is read, and then only its content is checked. -/
theorem Section.exists_read_eq {h : Header} (d : h.Describes image)
    (within : Stored.entryOffset image index + 0x28 ≤ image.size) :
    ∃ s, s.Describes image index ∧
      Section.read image h index = s.content image >>= fun _ => .ok s := by
  have place := d.entryOffset_eq index
  obtain ⟨kind, hkind⟩ : ∃ w, image.word32 (h.entryOffset index + 0x04) = .ok w :=
    View.exists_word (by omega)
  obtain ⟨flags, hflags⟩ : ∃ w, image.word64 (h.entryOffset index + 0x08) = .ok w :=
    View.exists_word (by omega)
  obtain ⟨nameOffset, hname⟩ : ∃ w, image.word32 (h.entryOffset index) = .ok w :=
    View.exists_word (by omega)
  obtain ⟨fileOffset, hoffset⟩ : ∃ w, image.word64 (h.entryOffset index + 0x18) = .ok w :=
    View.exists_word (by omega)
  obtain ⟨size, hsize⟩ : ∃ w, image.word64 (h.entryOffset index + 0x20) = .ok w :=
    View.exists_word (by omega)
  refine ⟨⟨index, nameOffset, kind, flags, fileOffset, size, holdsCode kind flags⟩, ?_, ?_⟩
  · rw [place] at hkind hflags hname hoffset hsize
    have kind_eq : kind.toNat = Stored.kind image index := (View.word32_eq_ok_iff.1 hkind).2
    have flags_eq : flags.toNat = Stored.flags image index := (View.word64_eq_ok_iff.1 hflags).2
    refine ⟨rfl, (View.word32_eq_ok_iff.1 hname).2, kind_eq, flags_eq,
      (View.word64_eq_ok_iff.1 hoffset).2, (View.word64_eq_ok_iff.1 hsize).2, ?_⟩
    rw [← kind_eq, ← flags_eq]
    exact holdsCode_iff
  · unfold Section.read Section.readBy Reads.exact
    simp only [pure_bind, hkind, hflags, Nat.add_zero, hname, hoffset, hsize, lift_ok_bind]
    rfl

theorem Section.read_eq_ok_iff_contained {h : Header} (d : h.Describes image)
    (within : Stored.entryOffset image index + 0x28 ≤ image.size) :
    Section.read image h index = .ok s ↔
      s.Describes image index ∧ Stored.Contained image index := by
  obtain ⟨s', d', same⟩ := exists_read_eq d within
  rw [same, Answer.bind_eq_ok_iff]
  constructor
  · rintro ⟨code, hcode, ⟨⟩⟩
    refine ⟨d', ?_⟩
    by_contra beyond
    rw [d'.content_eq_error beyond] at hcode
    cases hcode
  · rintro ⟨ds, contained⟩
    obtain ⟨code, hcode⟩ := d'.exists_content contained
    exact ⟨code, hcode, congrArg Except.ok (d'.unique ds)⟩

theorem Section.read_eq_error {h : Header} (d : h.Describes image)
    (within : Stored.entryOffset image index + 0x28 ≤ image.size)
    (beyond : ¬Stored.Contained image index) :
    Section.read image h index =
      .error (.truncated ⟨Stored.fileOffset image index, Stored.size image index, image.size⟩) := by
  obtain ⟨s, ds, same⟩ := exists_read_eq d within
  rw [same, ds.content_eq_error beyond]
  rfl

end

end CodeSpans.Elf
