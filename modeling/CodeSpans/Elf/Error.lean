import CodeSpans.Bytes.View

/-!
# What can be wrong with an image

The reasons for which an ELF64 image is not indexed, or a section has no name
or content, or none is found; and their texts.
-/

namespace CodeSpans.Elf

def headerSize : Nat := 0x40

/-- The least size of a section header entry: it holds all that is read of every entry. -/
def minEntrySize : Nat := 0x28

/-- Why an image, a section or a name cannot be used. -/
inductive Error where
  /-- A header, an entry, a section or a name leaves the image. -/
  | truncated (overrun : Overrun)
  | badMagic
  /-- The class is not that of 64-bit images. -/
  | unsupportedClass (value : UInt8)
  /-- The data encoding is not little-endian. -/
  | unsupportedEncoding (value : UInt8)
  | entrySizeTooSmall (value : UInt16)
  /-- The index of the section that holds the names is no index of a section. -/
  | namesIndexOutOfRange (index : UInt32) (count : UInt64)
  | noNames
  | noSuchSection (name : String)
deriving DecidableEq, Repr, Inhabited

def Error.message : Error → String
  | .truncated overrun => s!"Truncated: {overrun.message}"
  | .badMagic => "Not an ELF file (bad magic)"
  | .unsupportedClass value => s!"Unsupported ELF class {value.toNat}, only ELF64 is handled"
  | .unsupportedEncoding value =>
    s!"Unsupported data encoding {value.toNat}, only little-endian is handled"
  | .entrySizeTooSmall value =>
    s!"Section header entry size {value.toNat} is smaller than {Hex.literal minEntrySize}"
  | .namesIndexOutOfRange index count =>
    s!"String table index {index.toNat} out of range for {count.toNat} sections"
  | .noNames => "No section name string table"
  | .noSuchSection name => s!"Section not found: {name}"

/-- What an error comes from, outermost first, as texts. -/
def Error.causes : Error → List String
  | .truncated overrun => [overrun.message]
  | _ => []

/-- A read that leaves the image is an error of the image. -/
instance : MonadLift (Except Overrun) (Except Error) where
  monadLift := Except.mapError .truncated

end CodeSpans.Elf
