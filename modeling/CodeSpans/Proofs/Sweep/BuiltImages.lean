import CodeSpans.Proofs.Elf.RoundTrip
import CodeSpans.Proofs.Sweep.Sections
import CodeSpans.X86.Instruction

/-!
# Built images swept

What comes back of an image that was built: the index has the parts in order, and the sections that
are swept are the parts that hold code (`Elf.Image.reads_back`).
-/

namespace CodeSpans.Elf.Image

variable {i : Image} {t : SectionTable}

/-- The parts that hold code are swept in order, each under its name. -/
theorem Buildable.run_codeParts (b : i.Buildable) (d : t.Describes i.toView) (decoder : Decoder) :
    ∃ d, Strategy.linear.run t decoder t.executable = .ok d ∧
      List.Forall₂ (fun p r => r.name = p.name ∧ r.code = .ofList p.content ∧
        r.toSweep = Sweep.run decoder (.ofList p.content)) i.codeParts d.sections := by
  have swept : ∀ p s, p ∈ i.codeParts → t.Repeats p s → t.sweep decoder s =
      .ok { Sweep.run decoder (.ofList p.content) with
        index := s.index, name := p.name, fileOffset := s.fileOffset, size := s.size,
        code := .ofList p.content } := by
    intro p s mem r
    have kind : p.kind ≠ noBits := by
      have code := of_decide_eq_true (List.mem_filter.1 mem).2
      rw [code.1]
      decide
    have content := r.content_eq
    rw [if_neg kind] at content
    exact SectionTable.sweep_eq_ok_iff.2 ⟨_, _, r.name_eq, content, rfl⟩
  have repeats := (List.forall₂_and_left _ _).2
    ⟨fun p mem => (mem : p ∈ i.codeParts), b.executable_repeats d⟩
  have answered : ∀ s ∈ t.executable, ∃ r, t.sweep decoder s = .ok r := by
    intro s mem
    obtain ⟨p, -, hp, r⟩ := Answer.exists_of_mem repeats mem
    exact ⟨_, swept p s hp r⟩
  obtain ⟨results, answers⟩ := Answer.exists_mapM_eq_ok answered
  have answers := Answer.mapM_eq_ok_iff.1 answers
  refine ⟨⟨results⟩, Strategy.run_eq_ok_iff.2 answers, ?_⟩
  refine Answer.forall₂_of_same_items repeats.flip answers fun s _ p r ⟨hp, repeated⟩ answer => ?_
  rw [swept p s hp repeated] at answer
  cases answer
  exact ⟨rfl, rfl, rfl⟩

/-- **Round trip.** A built image is indexed, with the machine it was built for. It has the null
section, then one section for each part in order, then the section that holds the names; each has
the kind, flags, size, name and content it was given, and holds code when kind and flags say so. Of
the sections with the name of a part, a search finds the lowest. The parts that hold code are swept
in order, each under its name and just over its bytes. -/
theorem reads_back (b : i.Buildable) :
    ∃ t, SectionTable.ofImage i.toView = .ok t ∧ t.header.machine = i.machine ∧
      List.Forall₂ t.Repeats (nullPart :: i.parts ++ [i.namesPart]) t.sections ∧
      (∀ index (lt : index < t.sections.length), t.sections[index].index = index) ∧
      (∀ p ∈ i.parts, ∃ s ∈ t.sections, t.find p.name = .ok s ∧ t.name s = .ok p.name ∧
        ∀ s' ∈ t.sections, t.name s' = .ok p.name → s.index ≤ s'.index) ∧
      ∀ decoder, ∃ d, Strategy.linear.run t decoder t.executable = .ok d ∧
        List.Forall₂ (fun p r => r.name = p.name ∧ r.code = .ofList p.content ∧
            r.toSweep = Sweep.run decoder (.ofList p.content))
          (i.parts.filter fun p => p.kind = progBits ∧ p.flags &&& flagExec ≠ 0) d.sections := by
  obtain ⟨t, indexed⟩ := b.exists_ofImage
  have d := (SectionTable.ofImage_eq_ok_iff_describes.1 indexed).2
  refine ⟨t, indexed, machine_eq d, b.repeats d, ?_, ?_, ?_⟩
  · intro index lt
    exact (d.getElem lt).index_eq
  · intro p mem
    exact b.find_part d mem
  · intro decoder
    exact b.run_codeParts d decoder

/-- Two parts of one name, one that declares the greatest size, and one without a name that has
content but takes none of it: both parts that hold code are swept. -/
theorem reads_back_of_same_names :
    ∃ i : Image, i.Buildable ∧ ∃ t, SectionTable.ofImage i.toView = .ok t ∧
      t.header.machine = 0xffff ∧ t.sections.length = 6 ∧
      ∃ d, Strategy.linear.run t X86.decode t.executable = .ok d ∧
        d.sections.map (fun r => (r.name, r.code)) =
          [(".text", .ofList [0xc3]), (".text", .ofList [0x90, 0x06])] := by
  let i : Image := ⟨0xffff, [.code ".text" [0xc3], .ofContent ".text" progBits flagExec [0x90, 0x06],
    .reserved ".bss" (0xffffffffffffffff : UInt64).toNat, .ofContent "" noBits flagExec [0x07]]⟩
  have b : i.Buildable := by
    refine ⟨?_, by decide, by decide, by decide +kernel, by decide +kernel⟩
    intro p mem
    have cases : p = .code ".text" [0xc3] ∨ p = .ofContent ".text" progBits flagExec [0x90, 0x06] ∨
        p = .reserved ".bss" (0xffffffffffffffff : UInt64).toNat ∨
        p = .ofContent "" noBits flagExec [0x07] := by simpa [i] using mem
    rcases cases with rfl | rfl | rfl | rfl
    · exact .code _ _
    · exact .ofContent _ _ _ _
    · exact .reserved _ _
    · exact .ofContent _ _ _ _
  obtain ⟨t, indexed, machine, repeats, -, -, swept⟩ := reads_back b
  obtain ⟨d, answer, sections⟩ := swept X86.decode
  refine ⟨i, b, t, indexed, machine, repeats.length_eq.symm, d, answer, ?_⟩
  have code : (i.parts.filter fun p => p.kind = progBits ∧ p.flags &&& flagExec ≠ 0) =
      [.code ".text" [0xc3], .ofContent ".text" progBits flagExec [0x90, 0x06]] := by
    decide
  rw [code] at sections
  obtain ⟨r, _, first, behind, same⟩ := List.forall₂_cons_left_iff.1 sections
  obtain ⟨r', _, second, none, rfl⟩ := List.forall₂_cons_left_iff.1 behind
  cases none
  rw [same, List.map_cons, List.map_cons, List.map_nil, first.1, first.2.1, second.1, second.2.1]
  rfl

end CodeSpans.Elf.Image
