import CodeSpans.Proofs.Text.Digits
import CodeSpans.Report.Field

/-!
# What records say in full

Reports other than plain text have a record for each instruction and for each stop. What such a
record says is an `Item`: all fields of the instruction and its bytes, or where and why the sweep
ended. Maps and hints are read back from their names.
-/

namespace CodeSpans

namespace X86

theorem OpcodeMap.ofName?_name (map : OpcodeMap) : ofName? map.name = some map := by
  cases map with
  | oneByte => rfl
  | twoByte => rfl
  | map38 => rfl
  | map3a => rfl

/-- The hint that has a name. -/
def BranchHint.ofName? (name : String) : Option BranchHint :=
  [notTaken, taken].find? (·.name == name)

theorem BranchHint.ofName?_name (hint : BranchHint) : ofName? hint.name = some hint := by
  cases hint with
  | notTaken => rfl
  | taken => rfl

end X86

namespace Report

open X86

/-- An instruction with its bytes. -/
structure Listed where
  span : Span
  bytes : List UInt8
deriving DecidableEq, Repr

/-- A stop with its message. -/
structure Halt where
  offset : Nat
  message : String
deriving DecidableEq, Repr

/-- What is said of a section: an instruction, or the stop. -/
inductive Item where
  | instruction (name : String) (listed : Listed)
  | stop (name : String) (halt : Halt)
deriving DecidableEq, Repr

def Listed.ofSpan (s : SectionSweep) (span : Span) : Listed :=
  ⟨span, s.bytesOf span⟩

def Halt.ofStop (stop : Stop) : Halt :=
  ⟨stop.offset, stop.reason.message⟩

namespace Item

def isStop : Item → Bool
  | instruction _ _ => false
  | stop _ _ => true

/-- All items of a section, the stop behind the instructions. -/
def ofSweep (s : SectionSweep) : List Item :=
  s.spans.map (fun span => instruction s.name (.ofSpan s span))
    ++ s.stop.toList.map fun place => stop s.name (.ofStop place)

theorem ofSweep_eq_nil_iff {s : SectionSweep} : ofSweep s = [] ↔ s.spans = [] ∧ s.stop = none := by
  unfold ofSweep
  rw [List.append_eq_nil_iff, List.map_eq_nil_iff, List.map_eq_nil_iff, Option.toList_eq_nil_iff]

end Item

end Report

end CodeSpans
