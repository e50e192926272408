import CodeSpans.X86.Instruction

/-!
# The grammar of encodings

An `Encoding` is the parts of an encoding in the order in which they stand, and `Encoding.bytes` is
the bytes it is written as. `Encoding.WellFormed` says which parts there may and must be: it asks
the opcode tables and the widths of immediates, and nothing of how an encoding is read.
`Encoding.instruction` is what a well-formed encoding is reported as.
-/

namespace CodeSpans.X86

/-! ## Operands -/

/-- Number of displacement bytes behind a ModRM byte and the SIB byte behind it, if there is one:
one in mode 1; four in mode 2, and in mode 0 where the operand field is 5, or is 4 and the base of
the SIB byte is 5. -/
def ModRM.displacementSize (m : ModRM) (sib : Option UInt8) : Nat :=
  if m.mode = 1 then 1
  else if m.mode = 2 ∨ m.mode = 0 ∧ m.rm = 5 ∨
      m.mode = 0 ∧ m.rm = 4 ∧ sib.map (· &&& 7) = some 5 then 4
  else 0

/-- The ModRM byte of an encoding with what it asks for. -/
structure Operand where
  modrm : Option ModRM
  sib : Option UInt8
  displacement : List UInt8
deriving DecidableEq, Repr, Inhabited

namespace Operand

def bytes (o : Operand) : List UInt8 :=
  (o.modrm.map ModRM.byte).toList ++ o.sib.toList ++ o.displacement

/-- The operand has the parts that a use of the ModRM byte asks for. -/
structure Fits (use : ModRMUse) (o : Operand) : Prop where
  modrm : o.modrm.isSome ↔ use ≠ .absent
  sib : o.sib.isSome ↔ use = .addressing ∧ ∃ m ∈ o.modrm, m.mode ≠ 3 ∧ m.rm = 4
  displacement : o.displacement.length =
    if use = .addressing then (o.modrm.map (·.displacementSize o.sib)).getD 0 else 0

end Operand

/-! ## Legacy encodings -/

/-- The bytes that select a map in a legacy encoding. -/
def OpcodeMap.escape : OpcodeMap → List UInt8
  | .oneByte => []
  | .twoByte => [0x0f]
  | .map38 => [0x0f, 0x38]
  | .map3a => [0x0f, 0x3a]

/-- The parts of an encoding without vector escape. -/
structure LegacyEncoding where
  seen : Prefixes
  rex : Option Rex
  map : OpcodeMap
  opcode : UInt8
  operand : Operand
  immediate : List UInt8
deriving DecidableEq, Repr, Inhabited

namespace LegacyEncoding

def body (e : LegacyEncoding) : List UInt8 :=
  e.map.escape ++ e.opcode :: (e.operand.bytes ++ e.immediate)

def bytes (e : LegacyEncoding) : List UInt8 :=
  e.seen.map LegacyPrefix.byte ++ ((e.rex.map Rex.byte).toList ++ e.body)

/-- The map defines the opcode, and what stands behind it has the parts that its layout asks
for. -/
def Defined (e : LegacyEncoding) : Prop :=
  ∃ layout, e.map.layout? e.opcode = some layout ∧ e.operand.Fits layout.modrm ∧
    e.immediate.length = layout.immediate.width (.of e.seen e.rex e.operand.modrm)

/-- The parts are those that there may and must be. -/
structure WellFormed (e : LegacyEncoding) : Prop where
  few : e.seen.length ≤ maxPrefixes
  isRex : ∀ r ∈ e.rex, Rex.isRex r.byte
  defined : e.Defined

def instruction (e : LegacyEncoding) : Instruction where
  length := e.bytes.length.toUInt8
  hasLegacyPrefix := !e.seen.isEmpty
  hasRex := e.rex.isSome
  isVector := false
  map := e.map
  opcode := e.opcode
  hint := e.seen.hint? e.map e.opcode

end LegacyEncoding

/-! ## Vector encodings -/

/-- The payloads of vector escapes with the maps they select. The short form has no selector; the
others have it in the low bits of their first byte. -/
inductive VectorEscape.Selects : VectorEscape → List UInt8 → OpcodeMap → Prop where
  | vex2 (b : UInt8) : Selects .vex2 [b] .twoByte
  | vex3 (b c : UInt8) {map : OpcodeMap} (h : map? (b &&& 0x1f) = some map) :
      Selects .vex3 [b, c] map
  | evex (b c d : UInt8) {map : OpcodeMap} (h : map? (b &&& 0x07) = some map) :
      Selects .evex [b, c, d] map

/-- The parts of an encoding with a vector escape. -/
structure VectorEncoding where
  seen : Prefixes
  escape : VectorEscape
  payload : List UInt8
  map : OpcodeMap
  opcode : UInt8
  operand : Operand
  immediate : List UInt8
deriving DecidableEq, Repr, Inhabited

namespace VectorEncoding

def body (e : VectorEncoding) : List UInt8 :=
  e.escape.byte :: (e.payload ++ e.opcode :: (e.operand.bytes ++ e.immediate))

def bytes (e : VectorEncoding) : List UInt8 :=
  e.seen.map LegacyPrefix.byte ++ e.body

/-- The map defines the opcode, and what stands behind it has the parts that its layout asks
for. Prefixes have no part in the width of the immediate. -/
def Defined (e : VectorEncoding) : Prop :=
  ∃ layout, e.map.vectorLayout? e.opcode = some layout ∧ e.operand.Fits layout.modrm ∧
    e.immediate.length = layout.immediate.width (.of [] none none)

/-- The parts are those that there may and must be. -/
structure WellFormed (e : VectorEncoding) : Prop where
  few : e.seen.length ≤ maxPrefixes
  allowed : ∀ p ∈ e.seen, p ≠ .lock ∧ p ≠ .repne ∧ p ≠ .rep ∧ p ≠ .operandSize
  selects : e.escape.Selects e.payload e.map
  defined : e.Defined

def instruction (e : VectorEncoding) : Instruction where
  length := e.bytes.length.toUInt8
  hasLegacyPrefix := !e.seen.isEmpty
  hasRex := false
  isVector := true
  map := e.map
  opcode := e.opcode
  hint := none

end VectorEncoding

/-! ## Encodings -/

/-- An encoding of either shape. -/
inductive Encoding where
  | legacy (e : LegacyEncoding)
  | vector (e : VectorEncoding)
deriving DecidableEq, Repr, Inhabited

namespace Encoding

def bytes : Encoding → List UInt8
  | .legacy e => e.bytes
  | .vector e => e.bytes

/-- The parts are those that may and must be there. -/
def WellFormed : Encoding → Prop
  | .legacy e => e.WellFormed
  | .vector e => e.WellFormed

def instruction : Encoding → Instruction
  | .legacy e => e.instruction
  | .vector e => e.instruction

theorem bytes_ne_nil (e : Encoding) : e.bytes ≠ [] := by
  cases e with
  | legacy e => simp [bytes, LegacyEncoding.bytes, LegacyEncoding.body]
  | vector e => simp [bytes, VectorEncoding.bytes, VectorEncoding.body]

theorem instruction_length (e : Encoding) : e.instruction.length = e.bytes.length.toUInt8 := by
  cases e <;> rfl

end Encoding

end CodeSpans.X86
