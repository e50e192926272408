import CodeSpans.CommandLine.Execution
import CodeSpans.Elf.Image
import CodeSpans.Proofs.Elf.Names
import CodeSpans.Proofs.Report.Concatenation
import CodeSpans.Proofs.Sweep.Sections

/-!
# One section out of all

A run for one section looks for its name among all sections, whether they hold code or not, and a run
for all takes the sections that hold code, whatever they are called. What the one finds of the section
is what the other has first under the name (`Strategy.exists_excerpt`). So the report on the one
section is a part of the report on all, behind what is said of the sections with code before it
(`CommandLine.report_of_one_section`).
-/

namespace CodeSpans

open X86 Elf

variable {t : SectionTable} {decoder : Decoder}

theorem Elf.SectionTable.name_of_sweep {s : Section} {r : SectionSweep}
    (h : t.sweep decoder s = .ok r) : t.name s = .ok r.name := by
  obtain ⟨name, code, named, -, rfl⟩ := sweep_eq_ok_iff.1 h
  exact named

theorem Elf.SectionTable.executable_of_split {front behind : List Section} {s : Section}
    (split : t.sections = front ++ s :: behind) (code : s.isExecutable) :
    t.executable =
      front.filter (·.isExecutable) ++ [s] ++ behind.filter (·.isExecutable) := by
  unfold executable
  rw [split, List.filter_append, List.filter_cons_of_pos code, List.append_assoc]
  rfl

/-! ## Parts of what is swept -/

/-- What stands under a name behind other names is found. -/
theorem Disassembly.find?_between {before after : Disassembly} {r : SectionSweep}
    (others : ∀ r' ∈ before.sections, r'.name ≠ r.name) :
    (before ++ ⟨[r]⟩ ++ after).find? r.name = some r := by
  refine List.find?_eq_some_iff_append.2 ⟨beq_self_eq_true _, before.sections, after.sections, ?_, ?_⟩
  · exact List.append_assoc _ _ _
  · intro r' mem
    simpa using others r' mem

namespace Strategy

variable {strategy : Strategy} {d : Disassembly}

theorem run_append_eq_ok_iff {front behind : List Section} :
    strategy.run t decoder (front ++ behind) = .ok d ↔
      ∃ before after, strategy.run t decoder front = .ok before ∧
        strategy.run t decoder behind = .ok after ∧ d = before ++ after := by
  simp only [run, gather_eq, List.mapM_append, Answer.map_eq_ok_iff, Answer.bind_eq_ok_iff]
  constructor
  · rintro ⟨_, ⟨sweeps, first, sweeps', second, same⟩, rfl⟩
    cases same
    exact ⟨_, _, ⟨sweeps, first, rfl⟩, ⟨sweeps', second, rfl⟩, rfl⟩
  · rintro ⟨_, _, ⟨sweeps, first, rfl⟩, ⟨sweeps', second, rfl⟩, rfl⟩
    exact ⟨_, ⟨sweeps, first, sweeps', second, rfl⟩, rfl⟩

theorem run_singleton_eq_ok_iff {s : Section} :
    strategy.run t decoder [s] = .ok d ↔ ∃ r, t.sweep decoder s = .ok r ∧ d = ⟨[r]⟩ := by
  rw [run_eq_ok_iff, List.forall₂_cons_left_iff]
  constructor
  · rintro ⟨r, _, answer, none, same⟩
    cases none
    exact ⟨r, answer, congrArg Disassembly.mk same⟩
  · rintro ⟨r, answer, rfl⟩
    exact ⟨r, [], answer, .nil, rfl⟩

/-- Every result is called as one of the sections is. -/
theorem exists_named {sections : List Section} (swept : strategy.run t decoder sections = .ok d)
    {r : SectionSweep} (mem : r ∈ d.sections) : ∃ s ∈ sections, t.name s = .ok r.name := by
  obtain ⟨s, mem, answer⟩ := Answer.exists_of_mem (run_eq_ok_iff.1 swept) mem
  exact ⟨s, mem, SectionTable.name_of_sweep answer⟩

/-- The disassembly of one section, found by its name, is a part of the disassembly of all sections
that hold code: it stands there under the name, between those of the sections before and behind. -/
structure Excerpt (strategy : Strategy) (t : SectionTable) (decoder : Decoder) (name : String)
    (one full before after : Disassembly) : Prop where
  found : ∃ r, full.find? name = some r ∧ one = ⟨[r]⟩
  placed : ∃ front s behind, t.sections = front ++ s :: behind ∧ t.find name = .ok s ∧
    strategy.run t decoder (front.filter (·.isExecutable)) = .ok before ∧
    strategy.run t decoder (behind.filter (·.isExecutable)) = .ok after
  full_eq : full = before ++ one ++ after
  text : ReportFormat.text.render full = ReportFormat.text.render before ++
    ReportFormat.text.render one ++ ReportFormat.text.render after
  jsonLines : ReportFormat.jsonLines.render full = ReportFormat.jsonLines.render before ++
    ReportFormat.jsonLines.render one ++ ReportFormat.jsonLines.render after

/-- If the first section of a name holds code, it is the first of that name among those that do. -/
theorem exists_excerpt {name : String} {s : Section} {one full : Disassembly}
    (found : t.find name = .ok s) (code : s.isExecutable)
    (alone : strategy.run t decoder [s] = .ok one)
    (whole : strategy.run t decoder t.executable = .ok full) :
    ∃ before after, Excerpt strategy t decoder name one full before after := by
  obtain ⟨front, behind, split, others, named⟩ := SectionTable.findIn_eq_ok_iff.1 found
  rw [SectionTable.executable_of_split split code, run_append_eq_ok_iff] at whole
  obtain ⟨_, after, upTo, inBack, rfl⟩ := whole
  obtain ⟨before, one', inFront, here, rfl⟩ := run_append_eq_ok_iff.1 upTo
  obtain rfl : one = one' := Except.ok.inj (alone.symm.trans here)
  obtain ⟨r, answer, rfl⟩ := run_singleton_eq_ok_iff.1 alone
  obtain rfl : r.name = name :=
    Except.ok.inj ((SectionTable.name_of_sweep answer).symm.trans named)
  have passed : ∀ r' ∈ before.sections, r'.name ≠ r.name := by
    intro r' mem
    obtain ⟨b, inside, named'⟩ := exists_named inFront mem
    obtain ⟨other, named'', differs⟩ := others b (List.mem_of_mem_filter inside)
    rwa [Except.ok.inj (named'.symm.trans named'')]
  refine ⟨before, after, ?_⟩
  exact {
    found := ⟨r, Disassembly.find?_between passed, rfl⟩
    placed := ⟨front, s, behind, split, found, inFront, inBack⟩
    full_eq := rfl
    text := by rw [(Disassembly.joins _ after).text, (Disassembly.joins before _).text]
    jsonLines := by
      rw [(Disassembly.joins _ after).jsonLines, (Disassembly.joins before _).jsonLines] }

end Strategy

/-! ## Runs of the command line -/

namespace CommandLine

variable {o : Options}

/-- What is disassembled in a run. -/
def disassembly (o : Options) (t : SectionTable) : Except Trouble Disassembly := do
  let sections ← walked t o.sectionName
  (o.strategy.run t decode sections).mapError (Trouble.ofFailure ∘ .malformed)

theorem disassembly_eq_ok_iff {d : Disassembly} :
    disassembly o t = .ok d ↔
      ∃ sections, walked t o.sectionName = .ok sections ∧
        o.strategy.run t decode sections = .ok d := by
  simp only [disassembly, Answer.bind_eq_ok_iff, Answer.mapError_eq_ok_iff]

theorem walked_some_eq_ok_iff {name : String} {sections : List Section} :
    walked t (some name) = .ok sections ↔
      ∃ s, t.find name = .ok s ∧ s.isExecutable ∧ sections = [s] := by
  unfold walked
  simp only [Answer.bind_eq_ok_iff, Answer.mapError_eq_ok_iff]
  refine exists_congr fun s => and_congr_right fun _ => ?_
  by_cases code : s.isExecutable
  · rw [if_pos code, and_iff_right code]
    exact ⟨fun same => (Except.ok.inj same).symm, fun same => congrArg Except.ok same.symm⟩
  · rw [if_neg code]
    exact ⟨nofun, fun h => absurd h.1 code⟩

/-- A report that is not the listing is that on the disassembly. -/
theorem report_eq (unlisted : o.listSections = false) :
    (report o t).1 = (disassembly o t).map o.format.render := by
  unfold report disassembly
  rw [unlisted]
  cases walked t o.sectionName with
  | error trouble => rfl
  | ok sections =>
    rw [Answer.ok_bind]
    cases swept : o.strategy.run t decode sections with
    | error e => simp [swept, Except.map, Except.mapError]
    | ok d => simp [swept, Except.map, Except.mapError]

theorem execute_of_disassembly {image : View} {d : Disassembly}
    (indexed : SectionTable.ofImage image = .ok t) (unlisted : o.listSections = false)
    (answer : disassembly o t = .ok d) :
    ∃ journal, execute o (.ok image) = .success (o.format.render d) journal := by
  have written := report_eq (t := t) unlisted
  rw [answer] at written
  unfold execute
  simp only [indexed]
  cases printed : report o t with
  | mk result journal =>
    rw [printed] at written
    obtain rfl : result = .ok (o.format.render d) := written
    exact ⟨_, rfl⟩

/-- **One section out of all.** If a run for the section of a name and a run for all sections with code
both come to a disassembly, that of the one section is what the other has first under the name, alone.
Text reports and JSON lines on sections in a row are one behind the other, and so are the rows of
comma-separated reports, of which each has one heading, or none without a row. So what the run for one
section prints as text or as JSON lines is a part of what the run for all prints, just behind what is
printed of the sections with code before it. -/
theorem report_of_one_section (o : Options) (t : SectionTable) (name : String)
    {one full : Disassembly}
    (alone : disassembly { o with sectionName := some name } t = .ok one)
    (whole : disassembly { o with sectionName := none } t = .ok full) :
    (∃ before after, o.strategy.Excerpt t decode name one full before after) ∧
    (∀ a b : Disassembly, a.Joins b) ∧
    (∀ d, Report.CsvText.Headed d) ∧
    ∀ image, SectionTable.ofImage image = .ok t → o.listSections = false →
      ∃ journal journal',
        execute { o with sectionName := some name } (.ok image) =
          .success (o.format.render one) journal ∧
        execute { o with sectionName := none } (.ok image) =
          .success (o.format.render full) journal' := by
  refine ⟨?_, Disassembly.joins, Report.CsvText.headed, fun image indexed unlisted => ?_⟩
  · obtain ⟨_, chosen, sweptOne⟩ := disassembly_eq_ok_iff.1 alone
    obtain ⟨_, all, sweptAll⟩ := disassembly_eq_ok_iff.1 whole
    obtain ⟨s, found, code, rfl⟩ := walked_some_eq_ok_iff.1 chosen
    cases all
    exact Strategy.exists_excerpt found code sweptOne sweptAll
  · obtain ⟨journal, printed⟩ :=
      execute_of_disassembly (o := { o with sectionName := some name }) indexed unlisted alone
    obtain ⟨journal', printed'⟩ :=
      execute_of_disassembly (o := { o with sectionName := none }) indexed unlisted whole
    exact ⟨journal, journal', printed, printed'⟩

/-- The second section of four is alone what stands second of three: of its namesakes one stands behind
it and holds no code, the other is swept, too. -/
theorem report_of_one_section_among_namesakes :
    ∃ image t one full, ∃ o : Options, SectionTable.ofImage image = .ok t ∧
      disassembly { o with sectionName := some ".text" } t = .ok one ∧
      disassembly { o with sectionName := none } t = .ok full ∧
      one.sections.map (fun r => (r.name, r.index)) = [(".text", 2)] ∧
      full.sections.map (fun r => (r.name, r.index)) = [(".init", 1), (".text", 2), (".text", 4)] ∧
      ∃ before after, o.strategy.Excerpt t decode ".text" one full before after := by
  let image := (Image.mk machineX86_64 [.code ".init" [0x90], .code ".text" [0xc3],
    .ofContent ".text" progBits 0 [0x07], .code ".text" [0x90, 0x06]]).toView
  let o : Options := ⟨"a.out", .text, .parallel, none, false, false⟩
  have answer : (do
      let t ← (SectionTable.ofImage image).mapError Trouble.ofElf
      let one ← disassembly { o with sectionName := some ".text" } t
      let full ← disassembly { o with sectionName := none } t
      return (one.sections.map fun r => (r.name, r.index),
        full.sections.map fun r => (r.name, r.index))) =
      Except.ok ([(".text", 2)], [(".init", 1), (".text", 2), (".text", 4)]) := by
    decide +kernel
  obtain ⟨t, indexed, answer⟩ := Answer.bind_eq_ok_iff.1 answer
  obtain ⟨one, alone, answer⟩ := Answer.bind_eq_ok_iff.1 answer
  obtain ⟨full, whole, same⟩ := Answer.bind_eq_ok_iff.1 answer
  obtain ⟨first, second⟩ := Prod.mk.inj (Except.ok.inj same)
  exact ⟨image, t, one, full, o, Answer.mapError_eq_ok_iff.1 indexed, alone, whole, first, second,
    (report_of_one_section o t ".text" alone whole).1⟩

end CommandLine

end CodeSpans
