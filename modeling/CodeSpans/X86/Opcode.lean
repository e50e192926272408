/-!
# Opcode maps

An opcode byte means something only within its map, and the map is chosen by
what stands before the byte. For the length of an instruction two facts about
an opcode matter: what its ModRM byte is used for, and how wide its immediate
is. That is its `Layout`. The layouts are tables of opcode ranges, one table
for each map and each way of reaching it; an opcode in no range is undefined.
-/

namespace CodeSpans.X86

/-- The encoding space an opcode byte is taken from. -/
inductive OpcodeMap where
  /-- No escape. -/
  | oneByte
  /-- Behind `0f`. -/
  | twoByte
  /-- Behind `0f 38`. -/
  | map38
  /-- Behind `0f 3a`. -/
  | map3a
deriving DecidableEq, Repr, Inhabited

def OpcodeMap.name : OpcodeMap → String
  | .oneByte => "one-byte"
  | .twoByte => "two-byte"
  | .map38 => "0f38"
  | .map3a => "0f3a"

/-- Every map, by the number of escape bytes. -/
def OpcodeMap.all : List OpcodeMap := [.oneByte, .twoByte, .map38, .map3a]

def OpcodeMap.ofName? (name : String) : Option OpcodeMap :=
  all.find? (·.name == name)

/-- How the width of an immediate is found. -/
inductive Immediate where
  | none
  /-- One byte, a value or a short branch. -/
  | byte
  /-- Two bytes: how much a return pops. -/
  | word
  /-- Two bytes and one byte: a stack frame. -/
  | frame
  /-- The operand size: two bytes with an operand-size prefix, otherwise four. -/
  | operand
  /-- Eight bytes for 64-bit operands, otherwise the operand size. -/
  | wideOperand
  /-- A whole address: four bytes with an address-size prefix, otherwise eight. -/
  | address
  /-- Four bytes: a near branch. -/
  | near
  /-- One byte, but only where the ModRM register field is 0 or 1. -/
  | testByte
  /-- The operand size, but only where the ModRM register field is 0 or 1. -/
  | testOperand
deriving DecidableEq, Repr, Inhabited

/-- What the ModRM byte of an opcode is used for. -/
inductive ModRMUse where
  | absent
  /-- It names registers whatever its mode says, so nothing follows for an address. -/
  | registers
  /-- It names a register or an address, and an address may go on behind it. -/
  | addressing
deriving DecidableEq, Repr, Inhabited

/-- What follows an opcode byte. -/
structure Layout where
  modrm : ModRMUse
  immediate : Immediate
deriving DecidableEq, Repr, Inhabited

/-- Opcodes from `first` to `last` with one layout. -/
structure OpcodeRange where
  first : UInt8
  last : UInt8
  layout : Layout

/-- An opcode byte and nothing else. -/
def bare : Layout := ⟨.absent, .none⟩

/-- An opcode byte and an immediate. -/
def withImmediate (immediate : Immediate) : Layout := ⟨.absent, immediate⟩

/-- An opcode byte and an address or register operand. -/
def withOperand : Layout := ⟨.addressing, .none⟩

/-- An opcode byte, an address or register operand and an immediate. -/
def withBoth (immediate : Immediate) : Layout := ⟨.addressing, immediate⟩

/-- The layout of the first range that holds an opcode. -/
def layoutIn (ranges : List OpcodeRange) (opcode : UInt8) : Option Layout :=
  (ranges.find? fun r => r.first ≤ opcode && opcode ≤ r.last).map (·.layout)

/-- The eight arithmetic blocks: operand forms in columns 0 to 3, accumulator forms with an
immediate in columns 4 and 5; columns 6 and 7 are prefixes, escapes or undefined. -/
def arithmeticRanges : List OpcodeRange :=
  ([0x00, 0x08, 0x10, 0x18, 0x20, 0x28, 0x30, 0x38] : List UInt8).flatMap fun block =>
    [ ⟨block, block + 3, withOperand⟩,
      ⟨block + 4, block + 4, withImmediate .byte⟩,
      ⟨block + 5, block + 5, withImmediate .operand⟩ ]

def oneByteRanges : List OpcodeRange :=
  arithmeticRanges ++
  [ ⟨0x50, 0x5f, bare⟩,
    ⟨0x63, 0x63, withOperand⟩,
    ⟨0x68, 0x68, withImmediate .operand⟩,
    ⟨0x69, 0x69, withBoth .operand⟩,
    ⟨0x6a, 0x6a, withImmediate .byte⟩,
    ⟨0x6b, 0x6b, withBoth .byte⟩,
    ⟨0x6c, 0x6f, bare⟩,
    ⟨0x70, 0x7f, withImmediate .byte⟩,
    ⟨0x80, 0x80, withBoth .byte⟩,
    ⟨0x81, 0x81, withBoth .operand⟩,
    ⟨0x83, 0x83, withBoth .byte⟩,
    ⟨0x84, 0x8f, withOperand⟩,
    ⟨0x90, 0x99, bare⟩,
    ⟨0x9b, 0x9f, bare⟩,
    ⟨0xa0, 0xa3, withImmediate .address⟩,
    ⟨0xa4, 0xa7, bare⟩,
    ⟨0xa8, 0xa8, withImmediate .byte⟩,
    ⟨0xa9, 0xa9, withImmediate .operand⟩,
    ⟨0xaa, 0xaf, bare⟩,
    ⟨0xb0, 0xb7, withImmediate .byte⟩,
    ⟨0xb8, 0xbf, withImmediate .wideOperand⟩,
    ⟨0xc0, 0xc1, withBoth .byte⟩,
    ⟨0xc2, 0xc2, withImmediate .word⟩,
    ⟨0xc3, 0xc3, bare⟩,
    ⟨0xc6, 0xc6, withBoth .byte⟩,
    ⟨0xc7, 0xc7, withBoth .operand⟩,
    ⟨0xc8, 0xc8, withImmediate .frame⟩,
    ⟨0xc9, 0xc9, bare⟩,
    ⟨0xca, 0xca, withImmediate .word⟩,
    ⟨0xcb, 0xcc, bare⟩,
    ⟨0xcd, 0xcd, withImmediate .byte⟩,
    ⟨0xcf, 0xcf, bare⟩,
    ⟨0xd0, 0xd3, withOperand⟩,
    ⟨0xd7, 0xd7, bare⟩,
    ⟨0xd8, 0xdf, withOperand⟩,
    ⟨0xe0, 0xe7, withImmediate .byte⟩,
    ⟨0xe8, 0xe9, withImmediate .near⟩,
    ⟨0xeb, 0xeb, withImmediate .byte⟩,
    ⟨0xec, 0xef, bare⟩,
    ⟨0xf1, 0xf1, bare⟩,
    ⟨0xf4, 0xf5, bare⟩,
    ⟨0xf6, 0xf6, withBoth .testByte⟩,
    ⟨0xf7, 0xf7, withBoth .testOperand⟩,
    ⟨0xf8, 0xfd, bare⟩,
    ⟨0xfe, 0xff, withOperand⟩ ]

/-- The two-byte map. Moves to and from control and debug registers, `20` to `23`, ignore the
mode of their ModRM byte; `0f` carries one more opcode byte at its end. -/
def twoByteRanges : List OpcodeRange :=
  [ ⟨0x00, 0x03, withOperand⟩,
    ⟨0x05, 0x09, bare⟩,
    ⟨0x0b, 0x0b, bare⟩,
    ⟨0x0d, 0x0d, withOperand⟩,
    ⟨0x0e, 0x0e, bare⟩,
    ⟨0x0f, 0x0f, withBoth .byte⟩,
    ⟨0x10, 0x1f, withOperand⟩,
    ⟨0x20, 0x23, ⟨.registers, .none⟩⟩,
    ⟨0x28, 0x2f, withOperand⟩,
    ⟨0x30, 0x35, bare⟩,
    ⟨0x37, 0x37, bare⟩,
    ⟨0x40, 0x6f, withOperand⟩,
    ⟨0x70, 0x73, withBoth .byte⟩,
    ⟨0x74, 0x76, withOperand⟩,
    ⟨0x77, 0x77, bare⟩,
    ⟨0x78, 0x79, withOperand⟩,
    ⟨0x7c, 0x7f, withOperand⟩,
    ⟨0x80, 0x8f, withImmediate .near⟩,
    ⟨0x90, 0x9f, withOperand⟩,
    ⟨0xa0, 0xa2, bare⟩,
    ⟨0xa3, 0xa3, withOperand⟩,
    ⟨0xa4, 0xa4, withBoth .byte⟩,
    ⟨0xa5, 0xa5, withOperand⟩,
    ⟨0xa8, 0xaa, bare⟩,
    ⟨0xab, 0xab, withOperand⟩,
    ⟨0xac, 0xac, withBoth .byte⟩,
    ⟨0xad, 0xb9, withOperand⟩,
    ⟨0xba, 0xba, withBoth .byte⟩,
    ⟨0xbb, 0xc1, withOperand⟩,
    ⟨0xc2, 0xc2, withBoth .byte⟩,
    ⟨0xc3, 0xc3, withOperand⟩,
    ⟨0xc4, 0xc6, withBoth .byte⟩,
    ⟨0xc7, 0xc7, withOperand⟩,
    ⟨0xc8, 0xcf, bare⟩,
    ⟨0xd0, 0xff, withOperand⟩ ]

/-- The map behind `0f 38`: an operand and no immediate wherever it is defined. -/
def map38Ranges : List OpcodeRange :=
  [ ⟨0x00, 0x0b, withOperand⟩,
    ⟨0x10, 0x10, withOperand⟩,
    ⟨0x14, 0x15, withOperand⟩,
    ⟨0x17, 0x17, withOperand⟩,
    ⟨0x1c, 0x1e, withOperand⟩,
    ⟨0x20, 0x25, withOperand⟩,
    ⟨0x28, 0x2b, withOperand⟩,
    ⟨0x30, 0x35, withOperand⟩,
    ⟨0x37, 0x41, withOperand⟩,
    ⟨0x80, 0x82, withOperand⟩,
    ⟨0xc8, 0xcd, withOperand⟩,
    ⟨0xcf, 0xcf, withOperand⟩,
    ⟨0xdb, 0xdf, withOperand⟩,
    ⟨0xf0, 0xf6, withOperand⟩,
    ⟨0xf8, 0xf9, withOperand⟩,
    ⟨0xfc, 0xfc, withOperand⟩ ]

/-- The map behind `0f 3a`: an operand and one byte wherever it is defined. -/
def map3aRanges : List OpcodeRange :=
  [ ⟨0x08, 0x0f, withBoth .byte⟩,
    ⟨0x14, 0x17, withBoth .byte⟩,
    ⟨0x20, 0x22, withBoth .byte⟩,
    ⟨0x40, 0x42, withBoth .byte⟩,
    ⟨0x44, 0x44, withBoth .byte⟩,
    ⟨0x60, 0x63, withBoth .byte⟩,
    ⟨0xcc, 0xcc, withBoth .byte⟩,
    ⟨0xce, 0xcf, withBoth .byte⟩,
    ⟨0xdf, 0xdf, withBoth .byte⟩ ]

/-- The two-byte map as vector escapes reach it: all opcodes are defined, and all but `77`
have an operand. -/
def vectorTwoByteRanges : List OpcodeRange :=
  [ ⟨0x77, 0x77, bare⟩,
    ⟨0x70, 0x73, withBoth .byte⟩,
    ⟨0xc2, 0xc2, withBoth .byte⟩,
    ⟨0xc4, 0xc6, withBoth .byte⟩,
    ⟨0x00, 0xff, withOperand⟩ ]

/-- The layout of an opcode reached through no escape or through `0f`. -/
def OpcodeMap.layout? (map : OpcodeMap) : UInt8 → Option Layout :=
  match map with
  | .oneByte => layoutIn oneByteRanges
  | .twoByte => layoutIn twoByteRanges
  | .map38 => layoutIn map38Ranges
  | .map3a => layoutIn map3aRanges

/-- The layout of an opcode reached through a vector escape. No vector escape reaches the
one-byte map, and behind `0f 3a` there is always one byte. -/
def OpcodeMap.vectorLayout? (map : OpcodeMap) (opcode : UInt8) : Option Layout :=
  match map with
  | .oneByte => none
  | .twoByte => layoutIn vectorTwoByteRanges opcode
  | .map38 => some withOperand
  | .map3a => some (withBoth .byte)

end CodeSpans.X86
