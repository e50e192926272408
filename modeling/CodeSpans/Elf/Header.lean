import CodeSpans.Elf.Error

/-!
# The file header

The identification of an ELF64 image, and the fields that lead to its section
header table. An image with more sections than a 16-bit count can say leaves
the count zero and keeps it in the size field of entry 0; an image whose names
stand in a section beyond the 16-bit indices keeps that index in the link field
of entry 0.
-/

namespace CodeSpans.Elf

/-- The first four bytes of an ELF image. -/
def magic : List UInt8 := [0x7f, 0x45, 0x4c, 0x46]

def class64 : UInt8 := 2

def littleEndian : UInt8 := 1

def machineX86_64 : UInt16 := 62

/-- Says that the index of the names is in the link field of entry 0. -/
def extendedIndex : UInt16 := 0xffff

/-- Checks the identification bytes. The whole header must be there before any of them is
looked at. -/
def checkIdentification (image : View) : Except Error Unit := do
  let header ← image.slice 0 headerSize
  if header.toList.take magic.length ≠ magic then
    throw .badMagic
  let classByte ← image.byte 4
  if classByte ≠ class64 then
    throw (.unsupportedClass classByte)
  let encoding ← image.byte 5
  if encoding ≠ littleEndian then
    throw (.unsupportedEncoding encoding)

/-- The header fields that lead to the sections, extended numbering already resolved. -/
structure Header where
  /-- The machine the code is for. -/
  machine : UInt16
  tableOffset : UInt64
  entrySize : UInt16
  entryCount : UInt64
  /-- Index of the section that holds the names, zero for none. -/
  namesIndex : UInt32
deriving DecidableEq, Repr, Inhabited

namespace Header

def entryOffset (h : Header) (index : Nat) : Nat :=
  h.tableOffset.toNat + index * h.entrySize.toNat

def tableSize (h : Header) : Nat :=
  h.entryCount.toNat * h.entrySize.toNat

/-- A read at an exact place, which two or more header fields make up; if it leaves the image,
the place is reported in 64-bit words. -/
def located {α : Type} (result : Except Overrun α) : Except Error α :=
  result.mapError fun overrun => .truncated overrun.capped

def checkTable (image : View) (h : Header) : Except Error Unit := do
  let _ ← located (image.slice h.tableOffset.toNat h.tableSize)

end Header

/-! ## Reading -/

/-- How the parts of an image are read, in a monad. Where an entry begins is a place, which the
fields of the file header make up. -/
structure Reads (M : Type → Type) (Place : Type) where
  checkIdentification : M Unit
  /-- A word of the file header. -/
  word16 (offset : Nat) : M UInt16
  word64 (offset : Nat) : M UInt64
  /-- A word of entry 0, some bytes behind the offset of the table. -/
  first32 (tableOffset : UInt64) (more : Nat) : M UInt32
  first64 (tableOffset : UInt64) (more : Nat) : M UInt64
  /-- Checks that the table lies in the image. -/
  checkTable (h : Header) : M Unit
  entry (h : Header) (index : Nat) : M Place
  /-- A word of an entry, some bytes behind its place. -/
  field32 (entry : Place) (more : Nat) : M UInt32
  field64 (entry : Place) (more : Nat) : M UInt64
  slice (offset size : UInt64) : M View

/-- Reads at exact places. -/
def Reads.exact (image : View) : Reads (Except Error) Nat where
  checkIdentification := Elf.checkIdentification image
  word16 offset := image.word16 offset
  word64 offset := image.word64 offset
  first32 tableOffset more := Header.located (image.word32 (tableOffset.toNat + more))
  first64 tableOffset more := Header.located (image.word64 (tableOffset.toNat + more))
  checkTable h := h.checkTable image
  entry h index := return h.entryOffset index
  field32 entry more := image.word32 (entry + more)
  field64 entry more := image.word64 (entry + more)
  slice offset size := image.slice offset.toNat size.toNat

namespace Header

section

variable {M : Type → Type} {Place : Type} [Monad M] [MonadExcept Error M]

/-- The number of entries, given the count in the file header. -/
def readEntryCount (reads : Reads M Place) (tableOffset : UInt64) (count : UInt16) : M UInt64 :=
  if count = 0 then reads.first64 tableOffset 0x20 else return count.toUInt64

/-- The index of the names, given the index in the file header. -/
def readNamesIndex (reads : Reads M Place) (tableOffset : UInt64) (index : UInt16) : M UInt32 :=
  if index = extendedIndex then reads.first32 tableOffset 0x28 else return index.toUInt32

/-- Reads the fields of an image whose identification is checked. Without table offset and
count there are no sections, and the entry size does not matter. -/
def readBy (reads : Reads M Place) : M Header := do
  let tableOffset ← reads.word64 0x28
  let entrySize ← reads.word16 0x3a
  let count ← reads.word16 0x3c
  let index ← reads.word16 0x3e
  if tableOffset = 0 ∧ count = 0 then
    let machine ← reads.word16 0x12
    return { machine, tableOffset, entrySize, entryCount := 0, namesIndex := 0 }
  if entrySize.toNat < minEntrySize then
    throw (.entrySizeTooSmall entrySize)
  let entryCount ← readEntryCount reads tableOffset count
  let namesIndex ← readNamesIndex reads tableOffset index
  let header : Header :=
    { machine := ← reads.word16 0x12, tableOffset, entrySize, entryCount, namesIndex }
  reads.checkTable header
  if entryCount ≠ 0 ∧ entryCount.toNat ≤ namesIndex.toNat then
    throw (.namesIndexOutOfRange namesIndex entryCount)
  return header

end

def read (image : View) : Except Error Header :=
  readBy (.exact image)

end Header

end CodeSpans.Elf
