import CodeSpans.Elf.SectionTable
import CodeSpans.Proofs.Bytes.Words

/-!
# What an index says of its image

One lemma for each step of the indexing: when it succeeds, and what its result is then.
-/

namespace CodeSpans

namespace Elf

theorem lift_eq_ok_iff {α : Type} {x : Except Overrun α} {a : α} :
    (liftM x : Except Error α) = .ok a ↔ x = .ok a :=
  Answer.mapError_eq_ok_iff

theorem lift_ok_bind {α β : Type} {a : α} {f : α → Except Error β} :
    (liftM (.ok a : Except Overrun α) : Except Error α) >>= f = f a := rfl

section

variable {image : View} {s : Section}

theorem Section.content_eq (image : View) (s : Section) :
    s.content image =
      if s.hasContent then liftM (image.slice s.fileOffset.toNat s.size.toNat) else .ok .empty := rfl

theorem Section.content_of_kind_ne (h : s.kind ≠ noBits) :
    s.content image = liftM (image.slice s.fileOffset.toNat s.size.toNat) :=
  if_pos (by simpa [hasContent] using h)

theorem Section.content_of_noBits (h : s.kind = noBits) : s.content image = .ok .empty :=
  if_neg (by simp [hasContent, h])

theorem Section.content_eq_ok_iff (h : s.kind ≠ noBits) {code : View} :
    s.content image = .ok code ↔
      s.fileOffset.toNat + s.size.toNat ≤ image.size ∧
        code.toList = (image.toList.drop s.fileOffset.toNat).take s.size.toNat := by
  rw [content_of_kind_ne h, lift_eq_ok_iff, View.slice_eq_ok_iff]

/-- A section as it is read has its fields where its entry has them, and its content in the
image. -/
theorem Section.read_eq_ok_iff {header : Header} {index : Nat} :
    Section.read image header index = .ok s ↔
      s.index = index ∧
      image.word32 (header.entryOffset index) = .ok s.nameOffset ∧
      image.word32 (header.entryOffset index + 0x04) = .ok s.kind ∧
      image.word64 (header.entryOffset index + 0x08) = .ok s.flags ∧
      image.word64 (header.entryOffset index + 0x18) = .ok s.fileOffset ∧
      image.word64 (header.entryOffset index + 0x20) = .ok s.size ∧
      s.isExecutable = holdsCode s.kind s.flags ∧
      ∃ code, s.content image = .ok code := by
  unfold Section.read Section.readBy Reads.exact
  simp only [pure_bind, Answer.bind_eq_ok_iff, lift_eq_ok_iff]
  constructor
  · rintro ⟨kind, hkind, flags, hflags, name, hname, offset, hoffset, size, hsize, code, hcode,
      same⟩
    cases same
    exact ⟨rfl, hname, hkind, hflags, hoffset, hsize, rfl, code, hcode⟩
  · rintro ⟨rfl, hname, hkind, hflags, hoffset, hsize, executable, code, hcode⟩
    refine ⟨_, hkind, _, hflags, _, hname, _, hoffset, _, hsize, code, ?_, ?_⟩
    · rwa [← executable]
    · rw [← executable]
      rfl

/-- An index has the image, what is read of the file header, the entries in order, and, unless it
is index zero, the section that the header says holds the names. -/
theorem SectionTable.ofImage_eq_ok_iff {t : SectionTable} :
    SectionTable.ofImage image = .ok t ↔
      checkIdentification image = .ok () ∧
      Header.read image = .ok t.header ∧
      t.image = image ∧
      List.Forall₂ (fun index s => Section.read image t.header index = .ok s)
        (List.range t.header.entryCount.toNat) t.sections ∧
      t.names = if t.header.namesIndex = 0 then none
        else t.sections[t.header.namesIndex.toNat]? := by
  unfold SectionTable.ofImage SectionTable.ofImageBy
  simp only [Answer.bind_eq_ok_iff, Answer.mapM_eq_ok_iff]
  constructor
  · rintro ⟨⟨⟩, identified, header, hheader, sections, hsections, same⟩
    cases same
    exact ⟨identified, hheader, rfl, hsections, rfl⟩
  · rintro ⟨identified, hheader, rfl, hsections, hnames⟩
    refine ⟨(), identified, _, hheader, _, hsections, ?_⟩
    rw [← hnames]
    rfl

theorem SectionTable.image_of_ofImage {t : SectionTable} (h : ofImage image = .ok t) :
    t.image = image :=
  (ofImage_eq_ok_iff.1 h).2.2.1

theorem SectionTable.read_of_mem {t : SectionTable} (h : ofImage image = .ok t)
    (mem : s ∈ t.sections) : ∃ index, Section.read image t.header index = .ok s := by
  obtain ⟨-, -, -, entries, -⟩ := ofImage_eq_ok_iff.1 h
  obtain ⟨index, -, hread⟩ := Answer.exists_of_mem entries mem
  exact ⟨index, hread⟩

/-- The content of a section is in the image, or the section has none. -/
theorem SectionTable.exists_content_of_mem {t : SectionTable} (h : ofImage image = .ok t)
    (mem : s ∈ t.sections) : ∃ code, t.content s = .ok code := by
  obtain ⟨index, hread⟩ := read_of_mem h mem
  rw [content, image_of_ofImage h]
  exact (Section.read_eq_ok_iff.1 hread).2.2.2.2.2.2.2

/-- Sections to be disassembled have content. -/
theorem SectionTable.kind_of_mem_executable {t : SectionTable} (h : ofImage image = .ok t)
    (mem : s ∈ t.executable) : s ∈ t.sections ∧ s.kind ≠ noBits := by
  obtain ⟨mem, executable⟩ := List.mem_filter.1 mem
  refine ⟨mem, fun reserved => ?_⟩
  obtain ⟨index, hread⟩ := read_of_mem h mem
  obtain ⟨-, -, -, -, -, -, same, -⟩ := Section.read_eq_ok_iff.1 hread
  rw [executable, reserved] at same
  cases same

end

end Elf

end CodeSpans
