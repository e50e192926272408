import CodeSpans.Proofs.Report.CsvTextReader
import CodeSpans.Proofs.Report.JsonTextReader
import CodeSpans.Proofs.Report.PlainTextReader
import CodeSpans.Report.Format

/-!
# Reports lose and repeat no byte

Each format of report has a reader (`ReportFormat.read`). Of a report on an image, whatever its
format, the reader finds a block for each executable section that the format shows, and the block
accounts for all bytes that the section has in the image (`ReportFormat.read_render_accounts`).
-/

namespace CodeSpans

open X86 Elf

/-- What was swept of the executable sections, in their order. -/
theorem Strategy.forall₂_executable {image : View} {t : SectionTable}
    (indexed : SectionTable.ofImage image = .ok t) {strategy : Strategy} {d : Disassembly}
    (swept : strategy.run t decode t.executable = .ok d) :
    List.Forall₂ (fun (s : Section) (r : SectionSweep) =>
      (r.fileOffset = s.fileOffset ∧ r.size = s.size) ∧ r.Covers image ∧
        Walk decode r.code 0 r.spans r.stop) t.executable d.sections := by
  have contents : ∀ s ∈ t.executable, s.kind ≠ noBits :=
    fun s mem => (SectionTable.kind_of_mem_executable indexed mem).2
  have each := (List.forall₂_and_left _ _).2 ⟨contents, Strategy.run_eq_ok_iff.1 swept⟩
  refine each.imp fun s r => ?_
  intro ⟨content, answer⟩
  have covers := SectionTable.covers_of_sweep content answer
  rw [SectionTable.image_of_ofImage indexed] at covers
  obtain ⟨name, code, -, -, rfl⟩ := SectionTable.sweep_eq_ok_iff.1 answer
  exact ⟨⟨rfl, rfl⟩, covers, Sweep.walk decode code⟩

namespace ReportFormat

/-- The blocks that a report in a format shows. -/
def read : ReportFormat → List Char → Option (List Report.Block)
  | .text => Report.PlainText.read
  | .json => Report.JsonText.read
  | .jsonLines => Report.JsonLines.read
  | .csv => Report.CsvText.read

/-- Whether a report in a format has a block for a section that declares some size. -/
def showsSize : ReportFormat → UInt64 → Bool
  | .csv, size => size ≠ 0
  | _, _ => true

/-- A reader finds the blocks of what was swept. -/
theorem read_render {format : ReportFormat} {d : Disassembly}
    (walks : ∀ s ∈ d.sections, Walk decode s.code 0 s.spans s.stop)
    (sizes : ∀ s ∈ d.sections, s.code.size = s.size.toNat)
    (names : format = .text → ∀ s ∈ d.sections, Lines.OneLine s.name) :
    format.read (format.render d).toList =
      some ((d.sections.filter fun s => format.showsSize s.size).map .ofSweep) := by
  cases format with
  | text =>
    have short : ∀ s ∈ d.sections, ∀ span ∈ s.spans, span.length.toNat ≤ maxLength ∧
        (s.bytesOf span).length = span.length.toNat := by
      intro s mem span found
      have answer := (walks s mem).answer_of_mem decode_exact found
      have row := (walks s mem).accounts.lengths _ (List.mem_map_of_mem found)
      exact ⟨(decode_bounds answer).2.2.1, row.symm⟩
    have all : (d.sections.filter fun s => showsSize .text s.size) = d.sections :=
      List.filter_eq_self.2 fun _ _ => rfl
    rw [all]
    exact Report.PlainText.read_render (names rfl) short
  | json =>
    have all : (d.sections.filter fun s => showsSize .json s.size) = d.sections :=
      List.filter_eq_self.2 fun _ _ => rfl
    rw [all]
    exact Report.JsonText.read_render d
  | jsonLines =>
    have all : (d.sections.filter fun s => showsSize .jsonLines s.size) = d.sections :=
      List.filter_eq_self.2 fun _ _ => rfl
    rw [all]
    exact Report.JsonLines.read_render d
  | csv =>
    have same : ∀ s ∈ d.sections, decide (s.code.size ≠ 0) = showsSize .csv s.size := by
      intro s mem
      rw [sizes s mem]
      exact decide_eq_decide.2 (not_congr (UInt64.toNat_inj (b := 0)))
    rw [← List.filter_congr same]
    exact Report.CsvText.read_render walks

/-- **No report loses or repeats a byte**: whatever the format, the report on the executable sections
of an image shows a block for each of them, in their order, that accounts for its bytes. The text
report needs names on one line, and the comma-separated report leaves out what has no bytes. -/
theorem read_render_accounts {image : View} {t : SectionTable}
    (indexed : SectionTable.ofImage image = .ok t) {strategy : Strategy} {d : Disassembly}
    (swept : strategy.run t decode t.executable = .ok d) (format : ReportFormat)
    (names : format = .text → ∀ s ∈ d.sections, Lines.OneLine s.name) :
    ∃ blocks, format.read (format.render d).toList = some blocks ∧
      List.Forall₂ (fun (s : Section) (b : Report.Block) =>
          s.fileOffset.toNat + s.size.toNat ≤ image.size ∧
          b.Accounts ((image.toList.drop s.fileOffset.toNat).take s.size.toNat))
        (t.executable.filter fun s => format.showsSize s.size) blocks := by
  have found := Strategy.forall₂_executable indexed swept
  have swept' : ∀ r ∈ d.sections, r.Covers image ∧ Walk decode r.code 0 r.spans r.stop := by
    intro r mem
    obtain ⟨s, -, -, covers⟩ := Answer.exists_of_mem found mem
    exact covers
  refine ⟨_, read_render (fun r mem => (swept' r mem).2)
    (fun r mem => (swept' r mem).1.size_eq) names, ?_⟩
  rw [List.forall₂_map_right_iff]
  refine (List.rel_filter ?_ found).imp ?_
  · intro s r ⟨⟨_, size⟩, _⟩
    dsimp only
    rw [size]
  · intro s r ⟨⟨offset, size⟩, covers, walk⟩
    rw [← offset, ← size, ← covers.code_eq]
    exact ⟨covers.inImage, walk.accounts⟩

/-- Two sections are reported in every format, the first up to an instruction that its end cuts. -/
theorem read_render_accounts_of_two_sections :
    ∃ image t d, SectionTable.ofImage image = .ok t ∧ t.executable.length = 2 ∧
      Strategy.linear.run t decode t.executable = .ok d ∧ d.instructionCount = 3 ∧
      (∀ s ∈ d.sections, Lines.OneLine s.name) ∧
      ∀ format : ReportFormat, ∃ blocks, format.read (format.render d).toList = some blocks ∧
        List.Forall₂ (fun (s : Section) (b : Report.Block) =>
            s.fileOffset.toNat + s.size.toNat ≤ image.size ∧
            b.Accounts ((image.toList.drop s.fileOffset.toNat).take s.size.toNat))
          (t.executable.filter fun s => format.showsSize s.size) blocks := by
  have answer : (do
      let t ← SectionTable.ofImage
        (Image.mk machineX86_64 [.code ".text" [0x90, 0xc3, 0x0f], .code ".fini" [0xc3]]).toView
      let d ← Strategy.linear.run t decode t.executable
      return (t.executable.length, d.instructionCount,
        d.sections.all fun s => decide (Lines.OneLine s.name))) = Except.ok (2, 3, true) := by
    decide +kernel
  obtain ⟨t, indexed, answer⟩ := Answer.bind_eq_ok_iff.1 answer
  obtain ⟨d, swept, same⟩ := Answer.bind_eq_ok_iff.1 answer
  obtain ⟨two, same⟩ := Prod.mk.inj (Except.ok.inj same)
  obtain ⟨three, same⟩ := Prod.mk.inj same
  have names : ∀ s ∈ d.sections, Lines.OneLine s.name := by simpa using same
  exact ⟨_, t, d, indexed, two, swept, three, names, fun format =>
    read_render_accounts indexed swept format fun _ => names⟩

end ReportFormat

end CodeSpans
