import CodeSpans.Proofs.Elf.Table
import CodeSpans.Strategy

/-!
# Sweeps of sections

When a section is swept, and when a strategy has an answer, and what the answer is then.
-/

namespace CodeSpans

open Elf

theorem Elf.SectionTable.sweep_eq_ok_iff {t : SectionTable} {decoder : Decoder} {s : Section}
    {r : SectionSweep} :
    t.sweep decoder s = .ok r ↔
      ∃ name code, t.name s = .ok name ∧ t.content s = .ok code ∧
        r = { Sweep.run decoder code with
          index := s.index, name, fileOffset := s.fileOffset, size := s.size, code } := by
  unfold SectionTable.sweep
  simp only [Answer.bind_eq_ok_iff]
  constructor
  · rintro ⟨name, hname, code, hcode, same⟩
    exact ⟨name, code, hname, hcode, (Except.ok.inj same).symm⟩
  · rintro ⟨name, code, hname, hcode, rfl⟩
    exact ⟨name, hname, code, hcode, rfl⟩

/-- A strategy answers with the sweeps of all sections, in their order. -/
theorem Strategy.run_eq_ok_iff {strategy : Strategy} {t : SectionTable} {decoder : Decoder}
    {sections : List Section} {d : Disassembly} :
    strategy.run t decoder sections = .ok d ↔
      List.Forall₂ (fun s r => t.sweep decoder s = .ok r) sections d.sections := by
  rw [Strategy.run, Strategy.gather_eq, Answer.map_eq_ok_iff, ← Answer.mapM_eq_ok_iff]
  constructor
  · rintro ⟨sweeps, h, rfl⟩
    exact h
  · intro h
    exact ⟨_, h, rfl⟩

end CodeSpans
