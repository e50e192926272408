import CodeSpans.Elf.Image
import CodeSpans.Proofs.Sweep.Schedules
import CodeSpans.Proofs.Sweep.Sections
import CodeSpans.X86.Instruction

/-!
# Sections in parallel

With one task for each section, whatever the schedule, sections are swept with the same outcome as
one after another (`Strategy.runsParallel_agrees`). Only which of several failures is reported
depends on the schedule.
-/

namespace CodeSpans

open Elf

namespace Strategy

variable (t : SectionTable) (decoder : Decoder) (sections : List Section)

/-- An answer of the strategy under some schedule, with one task for each section. -/
def RunsParallel (outcome : Except Error Disassembly) : Prop :=
  ∃ answers, Tasks.Outcome (t.sweep decoder) sections answers ∧
    outcome = answers.map Disassembly.mk

variable {t decoder sections}

theorem run_eq_map (strategy : Strategy) :
    strategy.run t decoder sections = (sections.mapM (t.sweep decoder)).map Disassembly.mk := by
  rw [run, gather_eq]

theorem runsParallel_ok_iff {d : Disassembly} :
    RunsParallel t decoder sections (.ok d) ↔ Strategy.linear.run t decoder sections = .ok d := by
  rw [run_eq_map, Answer.map_eq_ok_iff]
  constructor
  · rintro ⟨answers, possible, same⟩
    obtain ⟨results, rfl, rfl⟩ := Answer.map_eq_ok_iff.1 same.symm
    exact ⟨results, Tasks.outcome_ok_iff.1 possible, rfl⟩
  · rintro ⟨results, answers, rfl⟩
    exact ⟨.ok results, Tasks.outcome_ok_iff.2 answers, rfl⟩

theorem runsParallel_error_iff {e : Error} :
    RunsParallel t decoder sections (.error e) ↔ ∃ s ∈ sections, t.sweep decoder s = .error e := by
  rw [← Tasks.outcome_error_iff]
  constructor
  · rintro ⟨answers, possible, same⟩
    cases answers with
    | error e' =>
      cases same
      exact possible
    | ok results => cases same
  · intro possible
    exact ⟨.error e, possible, rfl⟩

theorem run_error_iff (strategy : Strategy) {e : Error} :
    strategy.run t decoder sections = .error e ↔ sections.mapM (t.sweep decoder) = .error e := by
  rw [run_eq_map]
  cases sections.mapM (t.sweep decoder) with
  | error e' => simp [Except.map]
  | ok results => simp [Except.map]

/-- The sections one after another are one of the schedules. -/
theorem runsParallel_run (strategy : Strategy) :
    RunsParallel t decoder sections (strategy.run t decoder sections) := by
  rw [run_eq strategy .linear]
  cases answer : Strategy.linear.run t decoder sections with
  | ok d => exact runsParallel_ok_iff.2 answer
  | error e =>
    obtain ⟨before, s, after, rfl, -, fails⟩ :=
      Answer.mapM_eq_error_iff.1 ((run_error_iff .linear).1 answer)
    exact runsParallel_error_iff.2 ⟨s, List.mem_append_right _ List.mem_cons_self, fails⟩

/-- If one schedule has a disassembly for its outcome, every schedule has. -/
theorem RunsParallel.eq_ok {outcome : Except Error Disassembly} {d : Disassembly}
    (possible : RunsParallel t decoder sections outcome)
    (other : RunsParallel t decoder sections (.ok d)) : outcome = .ok d := by
  have answer := runsParallel_ok_iff.1 other
  cases outcome with
  | ok d' => exact (runsParallel_ok_iff.1 possible).symm.trans answer
  | error e =>
    obtain ⟨s, mem, fails⟩ := runsParallel_error_iff.1 possible
    obtain ⟨r, -, swept⟩ := Answer.exists_result (run_eq_ok_iff.1 answer) mem
    rw [swept] at fails
    cases fails

/-- Whatever the schedule, one task for each section has the answer of one section after another:
the same disassembly, or else a failure of some section, which is the same failure if there is only
one to be met. Every schedule ends, none before it has an answer, and the parallel strategy is
among them. -/
theorem runsParallel_agrees (t : SectionTable) (decoder : Decoder) (sections : List Section) :
    WellFounded (fun slots' slots => Tasks.Step (t.sweep decoder) sections slots slots') ∧
    (∀ slots, Tasks.Reaches (t.sweep decoder) sections slots →
      ∃ slots' answers, Relation.ReflTransGen (Tasks.Step (t.sweep decoder) sections) slots slots' ∧
        Tasks.Settled slots' ∧ Tasks.Collected slots' answers ∧
        RunsParallel t decoder sections (answers.map Disassembly.mk)) ∧
    RunsParallel t decoder sections (Strategy.parallel.run t decoder sections) ∧
    ∀ outcome, RunsParallel t decoder sections outcome →
      (∀ d, outcome = .ok d ↔ Strategy.linear.run t decoder sections = .ok d) ∧
      ((∃ e, outcome = .error e) ↔ ∃ e, Strategy.linear.run t decoder sections = .error e) ∧
      (∀ e, outcome = .error e → ∃ s ∈ sections, t.sweep decoder s = .error e) ∧
      ((∀ s ∈ sections, ∀ s' ∈ sections, ∀ e e', t.sweep decoder s = .error e →
          t.sweep decoder s' = .error e' → e = e') →
        outcome = Strategy.linear.run t decoder sections) := by
  refine ⟨Tasks.wellFounded_step _ _, ?_, runsParallel_run .parallel, ?_⟩
  · intro slots reaches
    obtain ⟨slots', answers, further, settled, collected, possible⟩ := reaches.exists_outcome
    exact ⟨slots', answers, further, settled, collected, answers, possible, rfl⟩
  · intro outcome possible
    have sequential : RunsParallel t decoder sections (Strategy.linear.run t decoder sections) :=
      runsParallel_run .linear
    cases answer : Strategy.linear.run t decoder sections with
    | ok d =>
      rw [answer] at sequential
      have same : outcome = .ok d := possible.eq_ok sequential
      subst same
      exact ⟨fun _ => Iff.rfl, Iff.rfl, nofun, fun _ => rfl⟩
    | error e =>
      cases outcome with
      | ok d =>
        have answer' := runsParallel_ok_iff.1 possible
        rw [answer] at answer'
        cases answer'
      | error e' =>
        rw [answer] at sequential
        obtain ⟨s, mem, fails⟩ := runsParallel_error_iff.1 sequential
        obtain ⟨s', mem', fails'⟩ := runsParallel_error_iff.1 possible
        refine ⟨fun d => ⟨nofun, nofun⟩, ⟨fun _ => ⟨e, rfl⟩, fun _ => ⟨e', rfl⟩⟩, ?_, ?_⟩
        · rintro _ ⟨⟩
          exact ⟨s', mem', fails'⟩
        · intro only
          rw [only s' mem' s mem e' e fails' fails]

/-- A section whose name leaves the names, between two whose names do not: every schedule has that
failure. Without it every schedule has the two sweeps. -/
theorem runsParallel_agrees_of_stray_name :
    ∃ t s stray e, SectionTable.ofImage
        (Image.mk machineX86_64 [.code ".text" [0xc3]]).toView = .ok t ∧ s ∈ t.executable ∧
      (∀ outcome, RunsParallel t X86.decode [s, stray, s] outcome → outcome = .error e) ∧
      ∃ d, d.sections.length = 2 ∧
        ∀ outcome, RunsParallel t X86.decode [s, s] outcome → outcome = .ok d := by
  let s : Section := ⟨1, 1, progBits, flagAlloc ||| flagExec, 0x40, 1, true⟩
  let stray : Section := { s with nameOffset := 0x200 }
  let e : Error := .truncated ⟨0x241, 1, 0x112⟩
  have facts : (SectionTable.ofImage (Image.mk machineX86_64 [.code ".text" [0xc3]]).toView).map
      (fun t => decide (s ∈ t.executable ∧ t.sweep X86.decode stray = .error e ∧
        Strategy.linear.run t X86.decode [s, stray, s] = .error e ∧
        (Strategy.linear.run t X86.decode [s, s]).map (·.sections.length) = .ok 2)) = .ok true := by
    decide +kernel
  obtain ⟨t, indexed, facts⟩ := Answer.map_eq_ok_iff.1 facts
  obtain ⟨mem, fails, failed, swept⟩ := of_decide_eq_true facts
  obtain ⟨d, answer, two⟩ := Answer.map_eq_ok_iff.1 swept
  refine ⟨t, s, stray, e, indexed, mem, ?_, d, two, ?_⟩
  · have only : ∀ b ∈ [s, stray, s], ∀ e', t.sweep X86.decode b = .error e' → e' = e := by
      intro b mem e' fails'
      obtain ⟨r, -, ok⟩ := Answer.exists_result (run_eq_ok_iff.1 answer) List.mem_cons_self
      have cases : b = s ∨ b = stray := by simpa [or_comm] using mem
      rcases cases with rfl | rfl
      · rw [ok] at fails'
        cases fails'
      · exact Except.error.inj (fails'.symm.trans fails)
    intro outcome possible
    have agrees := (runsParallel_agrees t X86.decode [s, stray, s]).2.2.2 outcome possible
    rw [← failed]
    apply agrees.2.2.2
    intro b mem b' mem' e₁ e₂ fails₁ fails₂
    rw [only b mem e₁ fails₁, only b' mem' e₂ fails₂]
  · intro outcome possible
    have agrees := (runsParallel_agrees t X86.decode [s, s]).2.2.2 outcome possible
    exact (agrees.1 d).2 answer

end Strategy

end CodeSpans
