import CodeSpans.Proofs.Elf.Untouched
import CodeSpans.Proofs.Sweep.Parallel

/-!
# Sections apart from each other

The bytes of one section, where nothing else is kept, have no say in anything but the sweep of that
section (`Strategy.run_isolates`). A run fails for names only, so not for what a decoder finds
(`Strategy.run_executable_error_iff`).
-/

namespace CodeSpans

open Elf

/-! ## Failures of a run -/

namespace Elf.SectionTable

variable {image : View} {t : SectionTable} {decoder : Decoder} {s : Section} {e : Error}

/-- The first section to be disassembled whose name does not resolve, and why it does not. -/
def FailsToName (t : SectionTable) (e : Error) : Prop :=
  ∃ before s after, t.executable = before ++ s :: after ∧
    (∀ b ∈ before, ∃ name, t.name b = .ok name) ∧ t.name s = .error e

theorem exists_content (indexed : ofImage image = .ok t) (mem : s ∈ t.executable) :
    ∃ code, t.content s = .ok code :=
  exists_content_of_mem indexed (kind_of_mem_executable indexed mem).1

theorem sweep_eq_error_iff (indexed : ofImage image = .ok t) (mem : s ∈ t.executable) :
    t.sweep decoder s = .error e ↔ t.name s = .error e := by
  obtain ⟨code, hcode⟩ := exists_content indexed mem
  unfold sweep
  rw [hcode]
  cases t.name s with
  | error e' => simp [bind, Except.bind]
  | ok name => simp [bind, Except.bind, pure, Except.pure]

end Elf.SectionTable

namespace Strategy

variable {image : View} {t : SectionTable} {decoder : Decoder} {e : Error}

/-- What a decoder finds is no reason for a run to fail, only the name of a section is. -/
theorem run_executable_error_iff (indexed : SectionTable.ofImage image = .ok t)
    (strategy : Strategy) :
    strategy.run t decoder t.executable = .error e ↔ t.FailsToName e := by
  have fails : ∀ s ∈ t.executable, ∀ e, t.sweep decoder s = .error e ↔ t.name s = .error e :=
    fun s mem e => SectionTable.sweep_eq_error_iff indexed mem
  rw [run_error_iff, Answer.mapM_eq_error_congr fails, Answer.mapM_eq_error_iff]
  rfl

theorem runsParallel_executable_error_iff (indexed : SectionTable.ofImage image = .ok t) :
    RunsParallel t decoder t.executable (.error e) ↔ ∃ s ∈ t.executable, t.name s = .error e := by
  rw [runsParallel_error_iff]
  constructor
  · rintro ⟨s, mem, fails⟩
    exact ⟨s, mem, (SectionTable.sweep_eq_error_iff indexed mem).1 fails⟩
  · rintro ⟨s, mem, fails⟩
    exact ⟨s, mem, (SectionTable.sweep_eq_error_iff indexed mem).2 fails⟩

end Strategy

/-! ## Two images -/

namespace Elf

namespace SectionTable

/-- Nothing else is kept where the content of a section is. -/
structure Isolates (t : SectionTable) (k : Section) : Prop where
  header : Disjoint k.range (places 0 headerSize)
  first : Disjoint k.range (places t.header.tableOffset.toNat 0x2c)
  table : Disjoint k.range (places t.header.tableOffset.toNat t.header.tableSize)
  names : ∀ holder, t.names = some holder → Disjoint k.range holder.range
  others : ∀ s ∈ t.executable, s.index ≠ k.index → Disjoint k.range s.range

variable {image other : View} {t : SectionTable} {k s : Section}

theorem Isolates.untouched (isolates : t.Isolates k) (d : t.Describes image) :
    Stored.Untouched k.range image := by
  have first := isolates.first
  have table := isolates.table
  rw [d.header.tableOffset_eq] at first table
  rw [Header.tableSize, d.header.entryCount_eq, d.header.entrySize_eq] at table
  exact ⟨isolates.header, first, table⟩

theorem Isolates.name_eq (isolates : t.Isolates k)
    (same : View.EqualOutside k.range t.image other) (s : Section) :
    name { t with image := other } s = t.name s :=
  name_eq_of_equalOutside { t with image := other } same rfl isolates.names s

theorem Isolates.failsToName_iff (isolates : t.Isolates k)
    (same : View.EqualOutside k.range t.image other) {e : Error} :
    FailsToName { t with image := other } e ↔ t.FailsToName e := by
  unfold FailsToName
  simp only [isolates.name_eq same]
  exact Iff.rfl

theorem Isolates.content_eq (isolates : t.Isolates k)
    (same : View.EqualOutside k.range t.image other) (mem : s ∈ t.executable)
    (apart : s.index ≠ k.index) : content { t with image := other } s = t.content s := by
  have code := same.slice_eq (isolates.others s mem apart)
  rw [content, content, Section.content_eq, Section.content_eq, code]

/-- The sweeps of a section in both images are the same, unless it is the section in which the
images differ. -/
theorem Isolates.sweep_apart (isolates : t.Isolates k)
    (same : View.EqualOutside k.range t.image other) (mem : s ∈ t.executable) {decoder : Decoder}
    {r r' : SectionSweep} (swept : t.sweep decoder s = .ok r)
    (swept' : sweep { t with image := other } decoder s = .ok r') :
    r'.index = r.index ∧ r'.name = r.name ∧ (r.index ≠ k.index → r' = r) := by
  obtain ⟨name, code, hname, hcode, rfl⟩ := sweep_eq_ok_iff.1 swept
  obtain ⟨name', code', hname', hcode', rfl⟩ := sweep_eq_ok_iff.1 swept'
  rw [isolates.name_eq same, hname] at hname'
  cases hname'
  refine ⟨rfl, rfl, fun apart => ?_⟩
  rw [isolates.content_eq same mem apart, hcode] at hcode'
  cases hcode'
  rfl

end SectionTable

end Elf

/-- **Isolation.** A run fails just when the name of a section to be disassembled does not resolve,
whatever decoder is used, and then for the first such name; with one task for each section it is for
any of them. Where the content of a section stands apart from all else that is read, other bytes in
that place leave the image indexed with the same header and records and with the same names, a run
fails for the same reason or for none, and the sweeps of all other sections stay as they are. -/
theorem Strategy.run_isolates {image : View} {t : SectionTable}
    (indexed : SectionTable.ofImage image = .ok t) :
    (∀ (strategy : Strategy) decoder e,
      strategy.run t decoder t.executable = .error e ↔ t.FailsToName e) ∧
    (∀ decoder e, RunsParallel t decoder t.executable (.error e) ↔
      ∃ s ∈ t.executable, t.name s = .error e) ∧
    ∀ k ∈ t.executable, t.Isolates k → ∀ other, View.EqualOutside k.range image other →
      ∃ t', SectionTable.ofImage other = .ok t' ∧ t'.header = t.header ∧
        t'.sections = t.sections ∧ t'.executable = t.executable ∧ t'.names = t.names ∧
        (∀ s, t'.name s = t.name s) ∧
        ∀ decoder,
          (∀ (strategy : Strategy) e, strategy.run t' decoder t'.executable = .error e ↔
            strategy.run t decoder t.executable = .error e) ∧
          (∀ e, RunsParallel t' decoder t'.executable (.error e) ↔
            RunsParallel t decoder t.executable (.error e)) ∧
          (∀ strategy : Strategy, (∃ d, strategy.run t' decoder t'.executable = .ok d) ↔
            ∃ d, strategy.run t decoder t.executable = .ok d) ∧
          ∀ (strategy : Strategy) d d', strategy.run t decoder t.executable = .ok d →
            strategy.run t' decoder t'.executable = .ok d' →
            List.Forall₂ (fun r r' => r'.index = r.index ∧ r'.name = r.name ∧
              (r.index ≠ k.index → r' = r)) d.sections d'.sections := by
  refine ⟨fun strategy decoder e => run_executable_error_iff indexed strategy,
    fun decoder e => runsParallel_executable_error_iff indexed, ?_⟩
  intro k mem isolates other same
  have d := (SectionTable.ofImage_eq_ok_iff_describes.1 indexed).2
  have indexed' := SectionTable.ofImage_of_equalOutside indexed (isolates.untouched d) same
  rw [← d.image_eq] at same
  have named := isolates.name_eq same
  refine ⟨{ t with image := other }, indexed', rfl, rfl, rfl, rfl, named, fun decoder => ?_⟩
  refine ⟨fun strategy e => ?_, fun e => ?_, fun strategy => ?_, ?_⟩
  · rw [run_executable_error_iff indexed' strategy, run_executable_error_iff indexed strategy]
    exact isolates.failsToName_iff same
  · rw [runsParallel_executable_error_iff indexed', runsParallel_executable_error_iff indexed]
    simp only [named]
    exact Iff.rfl
  · rw [Answer.exists_ok_iff, Answer.exists_ok_iff]
    apply forall_congr'
    intro e
    rw [Ne, Ne, run_executable_error_iff indexed' strategy,
      run_executable_error_iff indexed strategy, isolates.failsToName_iff same]
  · intro strategy disassembly disassembly' answer answer'
    refine Answer.forall₂_of_same_items (run_eq_ok_iff.1 answer) (run_eq_ok_iff.1 answer') ?_
    intro s mem r r' swept swept'
    exact isolates.sweep_apart same mem swept swept'

/-- A byte that starts no instruction, put in the place of the code of a section, breaks off the
sweep of that section, and the section behind it is swept as before. -/
theorem Strategy.run_isolates_of_broken_code :
    ∃ image other t t' d d', SectionTable.ofImage image = .ok t ∧
      SectionTable.ofImage other = .ok t' ∧
      Strategy.linear.run t X86.decode t.executable = .ok d ∧
      Strategy.linear.run t' X86.decode t'.executable = .ok d' ∧
      d.isComplete = true ∧ d'.isComplete = false ∧
      List.Forall₂ (fun r r' => r'.index = r.index ∧ r'.name = r.name ∧ (r.index ≠ 1 → r' = r))
        d.sections d'.sections := by
  let build (code : UInt8) : View :=
    (Image.mk machineX86_64 [.code ".text" [code], .code ".init" [0x90]]).toView
  let k : Section := ⟨1, 1, progBits, flagAlloc ||| flagExec, 0x40, 1, true⟩
  let s : Section := ⟨2, 7, progBits, flagAlloc ||| flagExec, 0x41, 1, true⟩
  let holder : Section := ⟨3, 13, strTab, 0, 0x42, 23, false⟩
  have facts : (SectionTable.ofImage (build 0xc3)).map (fun t => decide (
      t.header.tableOffset = 0x59 ∧ t.header.tableSize = 0x100 ∧ t.names = some holder ∧
      t.executable = [k, s] ∧
      (Strategy.linear.run t X86.decode t.executable).map (·.isComplete) = .ok true)) =
        .ok true := by
    decide +kernel
  have facts' : (SectionTable.ofImage (build 0x06)).map (fun t => decide (
      (Strategy.linear.run t X86.decode t.executable).map (·.isComplete) = .ok false)) =
        .ok true := by
    decide +kernel
  obtain ⟨t, indexed, facts⟩ := Answer.map_eq_ok_iff.1 facts
  obtain ⟨tableOffset, tableSize, names, executable, complete⟩ := of_decide_eq_true facts
  obtain ⟨d, answer, complete⟩ := Answer.map_eq_ok_iff.1 complete
  have mem : k ∈ t.executable := by
    rw [executable]
    exact List.mem_cons_self
  have isolates : t.Isolates k := by
    refine ⟨places_disjoint (.inr (by decide)), ?_, ?_, ?_, ?_⟩
    · rw [tableOffset]
      exact places_disjoint (.inl (by decide))
    · rw [tableOffset, tableSize]
      exact places_disjoint (.inl (by decide))
    · intro holder' held
      rw [names] at held
      cases held
      exact places_disjoint (.inl (by decide))
    · intro s' mem' apart
      rw [executable] at mem'
      have cases : s' = k ∨ s' = s := by simpa using mem'
      rcases cases with rfl | rfl
      · exact absurd rfl apart
      · exact places_disjoint (.inl (by decide))
  have same : View.EqualOutside k.range (build 0xc3) (build 0x06) := by
    have bytes : (build 0x06).toList = (build 0xc3).toList.set 0x40 0x06 := by decide +kernel
    refine ⟨by decide +kernel, fun i out => ?_⟩
    rw [bytes, List.getElem?_set_ne]
    rintro rfl
    exact out ⟨Nat.le_refl _, by decide⟩
  obtain ⟨t', indexed', -, -, -, -, -, both⟩ := (run_isolates indexed).2.2 k mem isolates _ same
  obtain ⟨-, -, succeeds, sections⟩ := both X86.decode
  obtain ⟨d', answer'⟩ := (succeeds .linear).2 ⟨d, answer⟩
  obtain ⟨t'', indexed'', broken⟩ := Answer.map_eq_ok_iff.1 facts'
  cases indexed'.symm.trans indexed''
  obtain ⟨d'', answer'', broken⟩ := Answer.map_eq_ok_iff.1 (of_decide_eq_true broken)
  cases answer'.symm.trans answer''
  exact ⟨_, _, t, t', d, d', indexed, indexed', answer, answer', complete, broken,
    sections .linear d d' answer answer'⟩

end CodeSpans
