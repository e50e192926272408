import CodeSpans.Elf.Section

/-!
# Building images

`Image.toBytes` lays out an ELF64 image with given sections: the file header,
the contents in order, the names, and the section header table. Entry 0 is the
null section, and the section that holds the names, its own among them, is the
last entry.
-/

namespace CodeSpans.Elf

/-- A section to be put into an image. -/
structure Part where
  name : String
  kind : UInt32
  flags : UInt64
  content : List UInt8
  /-- The declared size. -/
  size : Nat
deriving DecidableEq, Repr, Inhabited

namespace Part

/-- A section that declares the size its content has. -/
def ofContent (name : String) (kind : UInt32) (flags : UInt64) (content : List UInt8) : Part :=
  { name, kind, flags, content, size := content.length }

def code (name : String) (content : List UInt8) : Part :=
  ofContent name progBits (flagAlloc ||| flagExec) content

/-- A section that only declares a size. -/
def reserved (name : String) (size : Nat) : Part :=
  { name, kind := noBits, flags := flagAlloc, content := [], size }

/-- The name as it stands among the names. -/
def nameBytes (p : Part) : List UInt8 :=
  p.name.toUTF8.data.toList ++ [0]

end Part

/-- What a section header entry says. -/
structure Entry where
  nameOffset : Nat
  kind : UInt32
  flags : UInt64
  fileOffset : Nat
  size : Nat
deriving DecidableEq, Repr, Inhabited

namespace Entry

def null : Entry := ⟨0, 0, 0, 0, 0⟩

def width : Nat := 0x40

/-- The bytes of an entry. Address, link, information and entry size are zero, and the
alignment is one. -/
def toBytes (e : Entry) : List UInt8 :=
  LittleEndian.digits 4 e.nameOffset ++ LittleEndian.digits 4 e.kind.toNat
    ++ LittleEndian.digits 8 e.flags.toNat ++ LittleEndian.digits 8 0
    ++ LittleEndian.digits 8 e.fileOffset ++ LittleEndian.digits 8 e.size
    ++ LittleEndian.digits 4 0 ++ LittleEndian.digits 4 0
    ++ LittleEndian.digits 8 1 ++ LittleEndian.digits 8 0

end Entry

/-- An image to be built. -/
structure Image where
  /-- The machine the code is for. -/
  machine : UInt16 := machineX86_64
  /-- The sections between the null section and the one that holds the names. -/
  parts : List Part
deriving DecidableEq, Repr, Inhabited

namespace Image

def namesName : String := ".shstrtab"

/-- The entries of some parts, given where the first name and the first content go. -/
def place : (nameOffset fileOffset : Nat) → List Part → List Entry
  | _, _, [] => []
  | nameOffset, fileOffset, p :: rest =>
    ⟨nameOffset, p.kind, p.flags, fileOffset, p.size⟩
      :: place (nameOffset + p.nameBytes.length) (fileOffset + p.content.length) rest

/-- The names of the parts, each ended by NUL, behind a NUL for sections without a name. -/
def partNames (i : Image) : List UInt8 :=
  0 :: i.parts.flatMap Part.nameBytes

def names (i : Image) : List UInt8 :=
  i.partNames ++ namesName.toUTF8.data.toList ++ [0]

def contents (i : Image) : List UInt8 :=
  i.parts.flatMap (·.content)

def namesOffset (i : Image) : Nat := headerSize + i.contents.length

def tableOffset (i : Image) : Nat := i.namesOffset + i.names.length

def count (i : Image) : Nat := i.parts.length + 2

def entries (i : Image) : List Entry :=
  Entry.null :: place 1 headerSize i.parts
    ++ [⟨i.partNames.length, strTab, 0, i.namesOffset, i.names.length⟩]

/-- The file header: an executable, version 1, with no program headers. -/
def header (i : Image) : List UInt8 :=
  magic ++ [class64, littleEndian, 1] ++ List.replicate 9 0
    ++ LittleEndian.digits 2 2 ++ LittleEndian.digits 2 i.machine.toNat
    ++ LittleEndian.digits 4 1 ++ LittleEndian.digits 8 0 ++ LittleEndian.digits 8 0
    ++ LittleEndian.digits 8 i.tableOffset ++ LittleEndian.digits 4 0
    ++ LittleEndian.digits 2 headerSize ++ LittleEndian.digits 2 0 ++ LittleEndian.digits 2 0
    ++ LittleEndian.digits 2 Entry.width ++ LittleEndian.digits 2 i.count
    ++ LittleEndian.digits 2 (i.count - 1)

def toBytes (i : Image) : List UInt8 :=
  i.header ++ i.contents ++ i.names ++ i.entries.flatMap Entry.toBytes

def toView (i : Image) : View := .ofList i.toBytes

end Image

/-- Offset of section header `index` by the header fields of an image as they are, in 64-bit
arithmetic; `none` where the image has no such fields. -/
def storedHeaderOffset? (image : View) (index : Nat) : Option Nat :=
  match image.word64 0x28, image.word16 0x3a with
  | .ok table, .ok entrySize => some ((table.toNat + index * entrySize.toNat) % UInt64.size)
  | _, _ => none

/-- The image with other bytes from an offset on; what would leave the image is dropped. -/
def overwrite (image : View) (offset : Nat) (bytes : List UInt8) : View :=
  ⟨image.bytes.extract 0 offset ++ (bytes.take (image.size - offset)).toArray
    ++ image.bytes.extract (offset + bytes.length) image.size⟩

end CodeSpans.Elf
