import CodeSpans.Disassembly

/-!
# What reports say about an instruction

The texts that several report formats share.
-/

namespace CodeSpans.Report

open X86

/-- The bytes of an instruction, as pairs of hexadecimal digits. -/
def bytesText (s : SectionSweep) (span : Span) : String :=
  Hex.spaced (s.bytesOf span)

/-- What stands before the opcode: `legacy`, `rex` and `vex`, with commas between them. -/
def prefixSummary (i : Instruction) : String :=
  ",".intercalate
    ((if i.hasLegacyPrefix then ["legacy"] else [])
      ++ (if i.hasRex then ["rex"] else [])
      ++ (if i.isVector then ["vex"] else []))

end CodeSpans.Report
