import CodeSpans.X86.Opcode

/-!
# Prefixes

Legacy prefixes may stand before an instruction in any order, and a REX prefix
may follow them. A run of legacy prefixes is kept as the list of what was seen,
first to last; what it means for the instruction is asked of that list.
-/

namespace CodeSpans.X86

/-- A segment register that a prefix overrides to. -/
inductive Segment where
  | cs
  | ss
  | ds
  | es
  | fs
  | gs
deriving DecidableEq, Repr, Inhabited

/-- The prefix byte of a segment override. -/
def Segment.byte : Segment → UInt8
  | .cs => 0x2e
  | .ss => 0x36
  | .ds => 0x3e
  | .es => 0x26
  | .fs => 0x64
  | .gs => 0x65

inductive LegacyPrefix where
  | lock
  | repne
  /-- Repeat, or repeat while equal. -/
  | rep
  /-- Address through another segment; before a conditional jump perhaps a hint. -/
  | segment (register : Segment)
  /-- Operands of the other size. -/
  | operandSize
  /-- Addresses of the other size. -/
  | addressSize
deriving DecidableEq, Repr, Inhabited

namespace LegacyPrefix

def byte : LegacyPrefix → UInt8
  | .lock => 0xf0
  | .repne => 0xf2
  | .rep => 0xf3
  | .segment register => register.byte
  | .operandSize => 0x66
  | .addressSize => 0x67

def all : List LegacyPrefix :=
  [.lock, .repne, .rep, .segment .cs, .segment .ss, .segment .ds, .segment .es, .segment .fs,
    .segment .gs, .operandSize, .addressSize]

def ofByte? (b : UInt8) : Option LegacyPrefix :=
  all.find? (·.byte == b)

/-- The register a segment override names. -/
def segment? : LegacyPrefix → Option Segment
  | .segment register => some register
  | _ => none

theorem ofByte?_byte (p : LegacyPrefix) : ofByte? p.byte = some p := by
  cases p with
  | segment register => cases register <;> rfl
  | _ => rfl

theorem byte_of_ofByte? {b : UInt8} {p : LegacyPrefix} (h : ofByte? b = some p) : p.byte = b := by
  unfold ofByte? at h
  simpa using List.find?_some h

end LegacyPrefix

/-- The static prediction that a segment prefix before a conditional jump carries. -/
inductive BranchHint where
  | notTaken
  | taken
deriving DecidableEq, Repr, Inhabited

def BranchHint.name : BranchHint → String
  | .notTaken => "not-taken"
  | .taken => "taken"

def OpcodeMap.isConditionalJump (map : OpcodeMap) (opcode : UInt8) : Bool :=
  match map with
  | .oneByte => 0x70 ≤ opcode && opcode ≤ 0x7f
  | .twoByte => 0x80 ≤ opcode && opcode ≤ 0x8f
  | _ => false

/-- The legacy prefixes before an instruction, first to last. -/
abbrev Prefixes := List LegacyPrefix

namespace Prefixes

/-- Whether one of them refuses a vector escape behind it. -/
def refuseVector (seen : Prefixes) : Bool :=
  seen.any fun p => p matches .lock | .repne | .rep | .operandSize

/-- The segment override that counts, which is the last. -/
def lastSegment? (seen : Prefixes) : Option Segment :=
  seen.reverse.findSome? LegacyPrefix.segment?

/-- The hint for an opcode: on a conditional jump the overrides to `cs` and `ds` are hints. -/
def hint? (seen : Prefixes) (map : OpcodeMap) (opcode : UInt8) : Option BranchHint :=
  if map.isConditionalJump opcode then
    match seen.lastSegment? with
    | some .cs => some .notTaken
    | some .ds => some .taken
    | _ => none
  else none

end Prefixes

/-- A REX prefix, its four low bits being flags. -/
structure Rex where
  byte : UInt8
deriving DecidableEq, Repr, Inhabited

namespace Rex

def isRex (b : UInt8) : Bool := b &&& 0xf0 == 0x40

/-- 64-bit operands. -/
def w (rex : Rex) : Bool := rex.byte &&& 8 != 0

/-- The high bit of the ModRM register field. -/
def r (rex : Rex) : Bool := rex.byte &&& 4 != 0

/-- The high bit of the index field. -/
def x (rex : Rex) : Bool := rex.byte &&& 2 != 0

/-- The high bit of the base, ModRM operand or opcode register field. -/
def b (rex : Rex) : Bool := rex.byte &&& 1 != 0

end Rex

end CodeSpans.X86
