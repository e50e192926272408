import CodeSpans.Elf.Image
import CodeSpans.Proofs.Elf.WordArithmetic

/-!
# Which images are indexed, and how

`SectionTable.ofImage` against what an image stores: an image is indexed just when it has a table
and the contents of its sections, and the index is what the entries say, in order.
-/

namespace CodeSpans.Elf

/-- **Acceptance.** An image is indexed just when it has a table, or says that it has none, and every
section with content has it in the image. The index has one record for each entry in order, with the
fields of that entry, and picks those that hold code in the same order. An image that falls short of
nothing but contents is refused for the first of them. Words of 64 bits do not change any of this. -/
theorem SectionTable.ofImage_indexes (image : View) :
    ((∃ t, ofImage image = .ok t) ↔
      Stored.Located image ∧ ∀ index < Stored.count image, Stored.Contained image index) ∧
    (∀ t, ofImage image = .ok t →
      t.header.Describes image ∧
      t.sections.length = Stored.count image ∧
      (∀ index (lt : index < t.sections.length), t.sections[index].Describes image index) ∧
      (t.executable = t.sections.filter fun s => s.kind.toNat = 1 ∧ s.flags.toNat &&& 4 ≠ 0) ∧
      (Stored.Tableless image → t.sections = [])) ∧
    (Stored.Located image → ∀ index < Stored.count image,
      (∀ i < index, Stored.Contained image i) → ¬Stored.Contained image index →
      ofImage image = .error
        (.truncated ⟨Stored.fileOffset image index, Stored.size image index, image.size⟩)) ∧
    (image.size < UInt64.size → Word.ofImage image = ofImage image) := by
  refine ⟨⟨?_, ?_⟩, ?_, ?_, fun short => Word.ofImage_eq short⟩
  · rintro ⟨t, indexed⟩
    exact (ofImage_eq_ok_iff_describes.1 indexed).1
  · rintro ⟨located, contained⟩
    exact exists_ofImage located contained
  · intro t indexed
    have d := (ofImage_eq_ok_iff_describes.1 indexed).2
    refine ⟨d.header, d.length_eq, fun index lt => d.getElem lt, d.executable_eq, ?_⟩
    intro tableless
    have none := d.length_eq
    rw [Stored.count, if_pos tableless] at none
    exact List.eq_nil_of_length_eq_zero none
  · intro located index lt before beyond
    exact ofImage_eq_error located lt before beyond

/-- An image with a section that is executed and one that has no content is indexed, in words too;
with a section that declares more content than there is, it is refused for that section. -/
theorem SectionTable.ofImage_indexes_of_builder :
    (∃ image t, ofImage image = .ok t ∧ t.sections.length = 4 ∧ t.executable.length = 1 ∧
      Word.ofImage image = .ok t) ∧
    (∃ image, ofImage image = .error (.truncated ⟨0x40, 0x1000, 0x112⟩)) := by
  constructor
  · let image := (Image.mk machineX86_64 [.code ".text" [0xc3], .reserved ".bss" 0x1000]).toView
    have answer : (ofImage image).map (fun t => t.executable.length) = .ok 1 := by decide +kernel
    obtain ⟨t, indexed, one⟩ := Answer.map_eq_ok_iff.1 answer
    obtain ⟨-, faithful, -, words⟩ := ofImage_indexes image
    have length := (faithful t indexed).2.1
    have count : Stored.count image = 4 := by decide +kernel
    have short : image.size < UInt64.size := by decide +kernel
    exact ⟨image, t, indexed, length.trans count, one, (words short).trans indexed⟩
  · let image := (Image.mk machineX86_64 [⟨".text", progBits, flagExec, [0xc3], 0x1000⟩]).toView
    have located : Stored.Located image := by
      refine ⟨⟨?_, ?_, ?_, ?_⟩, .inr ⟨?_, ?_, ?_, ?_, ?_⟩⟩
      all_goals decide +kernel
    refine ⟨image, ?_⟩
    have refused := (ofImage_indexes image).2.2.1 located 1 (by decide +kernel) (by decide +kernel)
      (by decide +kernel)
    have place : Stored.fileOffset image 1 = 0x40 := by decide +kernel
    have size : Stored.size image 1 = 0x1000 := by decide +kernel
    have whole : image.size = 0x112 := by decide +kernel
    rw [place, size, whole] at refused
    exact refused

end CodeSpans.Elf
