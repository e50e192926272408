import CodeSpans.Elf.SectionTable
import CodeSpans.Sweep

/-!
# Disassembling sections

A `SectionSweep` is the sweep of one section's content together with what
identifies the section. A `Disassembly` is the sweeps of some sections, in the
order in which they were asked for.
-/

namespace CodeSpans

open X86

structure SectionSweep extends Sweep where
  /-- Place of the section in the table. -/
  index : Nat
  name : String
  fileOffset : UInt64
  /-- Declared size of the content. -/
  size : UInt64
  code : View
deriving DecidableEq, Repr, Inhabited

/-- The bytes of one of a section's instructions. -/
def SectionSweep.bytesOf (s : SectionSweep) (span : Span) : List UInt8 :=
  span.bytesIn s.code

/-- The sweeps of some sections. -/
structure Disassembly where
  sections : List SectionSweep
deriving DecidableEq, Repr, Inhabited

namespace Disassembly

def find? (d : Disassembly) (name : String) : Option SectionSweep :=
  d.sections.find? (·.name == name)

def instructionCount (d : Disassembly) : Nat :=
  d.sections.foldr (fun s count => s.spans.length + count) 0

/-- Whether every sweep came to the end of its section. -/
def isComplete (d : Disassembly) : Bool :=
  d.sections.all (·.isComplete)

end Disassembly

namespace Elf.SectionTable

/-- Sweeps a section. Its name and its content must be found; that no instruction forms in it
is no error. -/
def sweep (t : SectionTable) (decoder : Decoder) (s : Section) : Except Error SectionSweep := do
  let name ← t.name s
  let code ← t.content s
  return { Sweep.run decoder code with
    index := s.index, name, fileOffset := s.fileOffset, size := s.size, code }

end Elf.SectionTable

end CodeSpans
