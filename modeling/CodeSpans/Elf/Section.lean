import CodeSpans.Elf.Header

/-!
# Sections

A section as its header entry describes it. Only sections of kind `noBits` take
no bytes of the image, whatever size they declare.
-/

namespace CodeSpans.Elf

def progBits : UInt32 := 1

def strTab : UInt32 := 3

/-- The kind of sections that take no bytes of the image. -/
def noBits : UInt32 := 8

/-- The flag of sections that are loaded. -/
def flagAlloc : UInt64 := 2

/-- The flag of sections that hold instructions. -/
def flagExec : UInt64 := 4

/-- One entry of the section header table. -/
structure Section where
  /-- Place in the table. -/
  index : Nat
  nameOffset : UInt32
  kind : UInt32
  flags : UInt64
  fileOffset : UInt64
  size : UInt64
  /-- Whether the section is to be disassembled. -/
  isExecutable : Bool
deriving DecidableEq, Repr, Inhabited

namespace Section

/-- Whether the content is in the image. -/
def hasContent (s : Section) : Bool := s.kind != noBits

/-- Whether kind and flags say that there are instructions. -/
def holdsCode (kind : UInt32) (flags : UInt64) : Bool :=
  kind == progBits && flags &&& flagExec != 0

section

variable {M : Type → Type} {Place : Type} [Monad M]

/-- The content; there is none where it is not in the image. -/
def contentBy (reads : Reads M Place) (s : Section) : M View :=
  if s.hasContent then reads.slice s.fileOffset s.size else return .empty

/-- Reads entry `index` of a table, and checks that the content lies in the image. -/
def readBy (reads : Reads M Place) (header : Header) (index : Nat) : M Section := do
  let entry ← reads.entry header index
  let kind ← reads.field32 entry 0x04
  let flags ← reads.field64 entry 0x08
  let s : Section := {
    index
    nameOffset := ← reads.field32 entry 0x00
    kind, flags
    fileOffset := ← reads.field64 entry 0x18
    size := ← reads.field64 entry 0x20
    isExecutable := holdsCode kind flags }
  let _ ← s.contentBy reads
  return s

end

def content (image : View) (s : Section) : Except Error View :=
  s.contentBy (.exact image)

def read (image : View) (header : Header) (index : Nat) : Except Error Section :=
  readBy (.exact image) header index

end Section

def kindNames : List (UInt32 × String) :=
  [ (0, "SHT_NULL"), (1, "SHT_PROGBITS"), (2, "SHT_SYMTAB"), (3, "SHT_STRTAB"), (4, "SHT_RELA"),
    (5, "SHT_HASH"), (6, "SHT_DYNAMIC"), (7, "SHT_NOTE"), (8, "SHT_NOBITS"), (9, "SHT_REL"),
    (10, "SHT_SHLIB"), (11, "SHT_DYNSYM"), (14, "SHT_INIT_ARRAY"), (15, "SHT_FINI_ARRAY"),
    (16, "SHT_PREINIT_ARRAY"), (17, "SHT_GROUP"), (18, "SHT_SYMTAB_SHNDX"), (19, "SHT_NUM"),
    (0x60000000, "SHT_LOOS"), (0x6ffffff5, "SHT_GNU_ATTRIBUTES"), (0x6ffffff6, "SHT_GNU_HASH"),
    (0x6ffffff7, "SHT_GNU_LIBLIST"), (0x6ffffff8, "SHT_CHECKSUM"), (0x6ffffffa, "SHT_SUNW_MOVE"),
    (0x6ffffffb, "SHT_SUNW_COMDAT"), (0x6ffffffc, "SHT_SUNW_SYMINFO"),
    (0x6ffffffd, "SHT_GNU_VERDEF"), (0x6ffffffe, "SHT_GNU_VERNEED"),
    (0x6fffffff, "SHT_GNU_VERSYM"), (0x70000000, "SHT_LOPROC"), (0x70000001, "SHT_X86_64_UNWIND"),
    (0x7fffffff, "SHT_HIPROC"), (0x80000000, "SHT_LOUSER"), (0x8fffffff, "SHT_HIUSER") ]

def kindName (kind : UInt32) : String :=
  (kindNames.lookup kind).getD "UNKNOWN_SHT"

end CodeSpans.Elf
