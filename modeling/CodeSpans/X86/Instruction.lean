import CodeSpans.X86.Reader
import CodeSpans.X86.Span

/-!
# Measuring instructions

An encoding is read in fixed stages: legacy prefixes, a REX prefix, the escape
that selects the opcode map, the opcode, the ModRM byte with what it asks for,
and the immediate. Only lengths are found; operands are not interpreted. The
stages are written for every monad that takes bytes. `decode` reads the
instruction at an offset with a `Reader`. It looks at no more than the
`maxLength` bytes from there on, and turns a reader's wish for more bytes into
`tooLong` or `truncated`, the length limit being asked first.
-/

namespace CodeSpans.X86

open TakesBytes

/-- The branch target marker, which is accepted whole before any prefix is counted. -/
def branchMarker : List UInt8 := [0xf3, 0x0f, 0x1e, 0xfa]

/-- What the branch target marker is reported as. -/
def branchMarkerInstruction : Instruction where
  length := 4
  hasLegacyPrefix := false
  hasRex := false
  isVector := false
  map := .twoByte
  opcode := 0x1e
  hint := none

section

variable (M : Type → Type) [Monad M] [TakesBytes M]

/-! ## Prefixes -/

/-- Reads legacy prefixes behind those already `seen`, with room for `room` more. -/
def readPrefixes : (room : Nat) → (seen : Prefixes) → M Prefixes
  | room, seen => do
    match ← lookup LegacyPrefix.ofByte? (← peek) with
    | none => return seen
    | some p =>
      match room with
      | 0 => refuse .tooManyPrefixes
      | room + 1 =>
        skip 1
        readPrefixes room (seen ++ [p])

/-- Reads a REX prefix if one is next. It must be the last prefix. -/
def readRex : M (Option Rex) := do
  let b ← peek
  if Rex.isRex b then
    skip 1
    let next ← peek
    let legacy ← lookup LegacyPrefix.ofByte? next
    if Rex.isRex next || legacy.isSome then
      refuse (.misplacedPrefix next)
    else
      return some ⟨b⟩
  else
    return none

/-! ## Addresses and immediates -/

structure ModRM where
  byte : UInt8
deriving DecidableEq, Repr, Inhabited

namespace ModRM

/-- How the operand is addressed; 3 is a register. -/
def mode (m : ModRM) : UInt8 := m.byte >>> 6

/-- The register field, or an opcode extension. -/
def reg (m : ModRM) : UInt8 := (m.byte >>> 3) &&& 7

def rm (m : ModRM) : UInt8 := m.byte &&& 7

end ModRM

/-- Width of the displacement of an address. Without a base, which mode 0 writes as base 5, it
has four bytes. -/
def displacementWidth (mode base : UInt8) : Nat :=
  if mode = 1 then 1
  else if mode = 2 then 4
  else if base = 5 then 4
  else 0

/-- Takes what an address has behind its ModRM byte: a SIB byte where the operand field is 4,
and a displacement. -/
def skipAddress (m : ModRM) : M Unit := do
  if m.mode = 3 then
    return ()
  else if m.rm = 4 then
    let sib ← take
    skip (displacementWidth m.mode (sib &&& 7))
  else
    skip (displacementWidth m.mode m.rm)

/-- Takes the ModRM byte of a layout, if it has one, and the address behind it. -/
def readModRM : ModRMUse → M (Option ModRM)
  | .absent => return none
  | .registers => return some ⟨← take⟩
  | .addressing => do
    let m : ModRM := ⟨← take⟩
    skipAddress M m
    return some m

/-- What the width of an immediate depends on besides its class. -/
structure Sizing where
  /-- There is an operand-size prefix. -/
  narrow : Bool
  /-- There is an address-size prefix. -/
  shortAddress : Bool
  /-- REX asks for 64-bit operands. -/
  wide : Bool
  reg : Option UInt8
deriving DecidableEq, Repr, Inhabited

namespace Sizing

/-- The operand size of immediates; 64-bit operands outrank the operand-size prefix. -/
def operandWidth (s : Sizing) : Nat :=
  if !s.wide && s.narrow then 2 else 4

/-- Whether the register field selects one of the two test instructions of a group. -/
def isTest (s : Sizing) : Bool :=
  s.reg = some 0 || s.reg = some 1

/-- The sizing under prefixes, REX and ModRM. -/
def of (seen : Prefixes) (rex : Option Rex) (m : Option ModRM) : Sizing where
  narrow := seen.contains .operandSize
  shortAddress := seen.contains .addressSize
  wide := rex.any Rex.w
  reg := m.map ModRM.reg

end Sizing

def Immediate.width (s : Sizing) : Immediate → Nat
  | .none => 0
  | .byte => 1
  | .word => 2
  | .frame => 3
  | .operand => s.operandWidth
  | .wideOperand => if s.wide then 8 else s.operandWidth
  | .address => if s.shortAddress then 4 else 8
  | .near => 4
  | .testByte => if s.isTest then 1 else 0
  | .testOperand => if s.isTest then s.operandWidth else 0

/-- Takes all that stands behind an opcode, and answers how many bytes the instruction has. -/
def readTail (layout : Layout) (sizing : Option ModRM → Sizing) : M UInt8 := do
  let m ← readModRM M layout.modrm
  skip (layout.immediate.width (sizing m))
  consumed

/-! ## Legacy encodings -/

/-- Takes the escape bytes of a legacy encoding. -/
def readEscape : M OpcodeMap := do
  if (← peek) = 0x0f then
    skip 1
    let second ← peek
    if second = 0x38 then
      skip 1
      return .map38
    else if second = 0x3a then
      skip 1
      return .map3a
    else
      return .twoByte
  else
    return .oneByte

/-- Reads a legacy encoding from its escape on. -/
def readLegacy (seen : Prefixes) (rex : Option Rex) : M Instruction := do
  let map ← readEscape M
  let opcode ← take
  match ← lookup map.layout? opcode with
  | none => refuse (.unknownOpcode map opcode)
  | some layout =>
    let length ← readTail M layout (.of seen rex)
    return {
      length
      hasLegacyPrefix := !seen.isEmpty
      hasRex := rex.isSome
      isVector := false
      map, opcode
      hint := seen.hint? map opcode }

/-! ## Vector encodings -/

/-- An escape that introduces a vector encoding. -/
inductive VectorEscape where
  /-- `c5`, with one payload byte. -/
  | vex2
  /-- `c4`, with two payload bytes. -/
  | vex3
  /-- `62`, with three payload bytes. -/
  | evex
deriving DecidableEq, Repr, Inhabited

namespace VectorEscape

def byte : VectorEscape → UInt8
  | .vex2 => 0xc5
  | .vex3 => 0xc4
  | .evex => 0x62

def ofByte? (b : UInt8) : Option VectorEscape :=
  [vex2, vex3, evex].find? (·.byte == b)

/-- Takes the payload of an escape and answers the map it selects. The short form has no
selector and always selects map 1. -/
def readSelect : VectorEscape → M UInt8
  | .vex2 => do
    skip 1
    return 1
  | .vex3 => do
    let payload ← take
    skip 1
    return payload &&& 0x1f
  | .evex => do
    let payload ← take
    skip 2
    return payload &&& 0x07

def map? (select : UInt8) : Option OpcodeMap :=
  if select = 1 then some .twoByte
  else if select = 2 then some .map38
  else if select = 3 then some .map3a
  else none

end VectorEscape

/-- Reads a vector encoding from its escape on. Its immediate never depends on prefixes. -/
def readVector (seen : Prefixes) (escape : VectorEscape) : M Instruction := do
  skip 1
  let select ← escape.readSelect M
  match VectorEscape.map? select with
  | none => refuse (.unsupportedSelect escape.byte select)
  | some map =>
    let opcode ← take
    match ← lookup map.vectorLayout? opcode with
    | none => refuse (.unknownOpcode map opcode)
    | some layout =>
      let length ← readTail M layout fun _ => .of [] none none
      return {
        length
        hasLegacyPrefix := !seen.isEmpty
        hasRex := false
        isVector := true
        map, opcode
        hint := none }

/-! ## Whole instructions -/

/-- Reads what stands behind the prefixes. A vector escape is refused behind REX and behind the
prefixes whose meaning it takes over. -/
def readBehind (seen : Prefixes) : M Instruction := do
  let rex ← readRex M
  let escape ← peek
  match VectorEscape.ofByte? escape with
  | none => readLegacy M seen rex
  | some vector =>
    if rex.isSome || seen.refuseVector then
      refuse (.misplacedPrefix escape)
    else
      readVector M seen vector

/-- Reads an instruction stage by stage. -/
def readStages : M Instruction := do
  readBehind M (← readPrefixes M maxPrefixes [])

end

/-- The instruction at the front of a window of code. -/
def Instruction.ofWindow (window : List UInt8) : Except Halt Instruction :=
  if window.take branchMarker.length = branchMarker then
    .ok branchMarkerInstruction
  else
    (readStages Reader).onWindow window

/-- The bytes that an instruction at an offset may have. -/
def windowAt (code : View) (start : Nat) : List UInt8 :=
  (code.bytes.extract start (start + maxLength)).toList

/-- What the end of a reader means for an instruction that starts at an offset. -/
def Halt.rejection (code : View) (start : Nat) : Halt → Rejection
  | .broken reason => reason
  | .wants length =>
    if maxLength < length then .tooLong else .truncated ⟨start, length, code.size⟩

/-- The instruction at an offset of some code. The offset may lie behind the code's end. -/
def decode (code : View) (start : Nat) : Except Rejection Span :=
  match Instruction.ofWindow (windowAt code start) with
  | .ok instruction => .ok { instruction with start }
  | .error halt => .error (halt.rejection code start)

end CodeSpans.X86
