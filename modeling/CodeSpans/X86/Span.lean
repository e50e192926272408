import CodeSpans.Bytes.View
import CodeSpans.X86.LegacyPrefix

/-!
# Instructions and spans

An `Instruction` is what the bytes of an encoding say about it, wherever they
stand. A `Span` is an instruction at an offset of some code.
-/

namespace CodeSpans.X86

/-- The length and the kind of an instruction. -/
structure Instruction where
  length : UInt8
  hasLegacyPrefix : Bool
  hasRex : Bool
  isVector : Bool
  map : OpcodeMap
  opcode : UInt8
  hint : Option BranchHint
deriving DecidableEq, Repr, Inhabited

/-- An instruction that starts at an offset of some code. -/
structure Span extends Instruction where
  start : Nat
deriving DecidableEq, Repr, Inhabited

namespace Span

/-- Offset just behind the last byte, where the next instruction starts. -/
def next (s : Span) : Nat := s.start + s.length.toNat

def bytesIn (s : Span) (code : View) : List UInt8 :=
  (code.bytes.extract s.start s.next).toList

end Span

end CodeSpans.X86
