import CodeSpans.Bytes.View
import CodeSpans.X86.Opcode

/-!
# Why no instruction forms

The reasons for which no instruction can be read at an offset, and their texts.
-/

namespace CodeSpans.X86

def maxLength : Nat := 15

/-- How many legacy prefixes may stand before an instruction. -/
def maxPrefixes : Nat := 4

inductive Rejection where
  | unknownOpcode (map : OpcodeMap) (opcode : UInt8)
  /-- A prefix or vector escape stands where it may not. -/
  | misplacedPrefix (byte : UInt8)
  | tooManyPrefixes
  /-- A vector escape selects a map that has no layouts. -/
  | unsupportedSelect (escape select : UInt8)
  /-- The instruction goes on past the end of the code. -/
  | truncated (overrun : Overrun)
  | tooLong
  /-- A decoder answered with an instruction of no bytes. -/
  | noProgress
deriving DecidableEq, Repr, Inhabited

def Rejection.message : Rejection → String
  | .unknownOpcode map opcode => s!"Unknown opcode {Hex.byteLiteral opcode} in {map.name} map"
  | .misplacedPrefix byte => s!"Misplaced prefix byte {Hex.byteLiteral byte}"
  | .tooManyPrefixes => s!"More than {maxPrefixes} legacy prefixes"
  | .unsupportedSelect escape select =>
    s!"Unsupported map select {select.toNat} after vector escape {Hex.byteLiteral escape}"
  | .truncated overrun => s!"Instruction runs past the end of the section: {overrun.message}"
  | .tooLong => s!"Instruction exceeds {maxLength} bytes"
  | .noProgress => "Decoder made no progress"

end CodeSpans.X86
