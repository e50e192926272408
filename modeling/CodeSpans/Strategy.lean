import CodeSpans.Disassembly
import CodeSpans.Text.Case

/-!
# Strategies

Sections are swept one after another, or each in a task of its own. Tasks end
in any order, but their results are gathered by the place of their sections,
and of several failures the first in that order is reported. So both
strategies give the same answer (`Strategy.run_eq`).
-/

namespace CodeSpans

open Elf

/-- How the sections of an image are walked. -/
inductive Strategy where
  | linear
  | parallel
deriving DecidableEq, Repr, Inhabited

namespace Strategy

def all : List Strategy := [.linear, .parallel]

/-- The strategy that is used when none is asked for. -/
def standard : Strategy := .linear

def name : Strategy → String
  | .linear => "linear"
  | .parallel => "parallel"

/-- What a strategy is called in messages. -/
def title : Strategy → String
  | .linear => "Linear sweep"
  | .parallel => "Parallel linear sweep"

/-- The strategy of a name, which must be spelled exactly unless `anyCase` is set. -/
def ofName? (anyCase : Bool) (text : String) : Option Strategy :=
  all.find? fun s => s.name == if anyCase then Case.fold text else text

/-- What is said of a name that no strategy has. -/
def unknownMessage (text : String) : String :=
  s!"invalid variant: {text}"

/-- Answers for all items, or the first failure. -/
def gather {ε α β : Type} (answer : α → Except ε β) : Strategy → List α → Except ε (List β)
  | .linear, items => items.mapM answer
  | .parallel, items => (items.map fun item => Task.spawn fun _ => answer item).mapM Task.get

/-- Disassembles some sections of an image. -/
def run (strategy : Strategy) (t : SectionTable) (decoder : Decoder) (sections : List Section) :
    Except Error Disassembly :=
  (strategy.gather (t.sweep decoder) sections).map Disassembly.mk

theorem gather_eq {ε α β : Type} (answer : α → Except ε β) (strategy : Strategy)
    (items : List α) : strategy.gather answer items = items.mapM answer := by
  cases strategy with
  | linear => rfl
  | parallel => simp [gather, List.mapM_map, Function.comp_def, Task.spawn]

theorem run_eq (strategy other : Strategy) (t : SectionTable) (decoder : Decoder)
    (sections : List Section) :
    strategy.run t decoder sections = other.run t decoder sections := by
  simp only [run, gather_eq]

end Strategy

end CodeSpans
