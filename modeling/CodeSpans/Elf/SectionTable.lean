import CodeSpans.Elf.Section
import CodeSpans.Text.Utf8

/-!
# The section header table

`SectionTable.ofImage` indexes an image: its identification, its header, and
every entry of the section header table in order. An index stays tied to its
image, from which names and contents are read. A name runs from its offset
among the names to the next NUL byte. The section that holds the names is used
as recorded, also when it is of a kind that has no content.
-/

namespace CodeSpans.Elf

structure SectionTable where
  image : View
  /-- The header fields the table was found by. -/
  header : Header
  sections : List Section
  /-- The section that holds the names. -/
  names : Option Section
deriving DecidableEq, Repr, Inhabited

/-- The bytes before the first NUL, if there is a NUL. -/
def upToNul (bytes : List UInt8) : Option (List UInt8) :=
  if bytes.contains 0 then some (bytes.takeWhile (· != 0)) else none

namespace SectionTable

def ofImageBy {M : Type → Type} {Place : Type} [Monad M] [MonadExcept Error M]
    (reads : Reads M Place) (image : View) : M SectionTable := do
  reads.checkIdentification
  let header ← Header.readBy reads
  let sections ← (List.range header.entryCount.toNat).mapM (Section.readBy reads header)
  let names := if header.namesIndex = 0 then none else sections[header.namesIndex.toNat]?
  return { image, header, sections, names }

/-- The index of an image. -/
def ofImage (image : View) : Except Error SectionTable :=
  ofImageBy (.exact image) image

/-- The sections to be disassembled, in order of the table. -/
def executable (t : SectionTable) : List Section :=
  t.sections.filter (·.isExecutable)

def name (t : SectionTable) (s : Section) : Except Error String := do
  match t.names with
  | none => throw .noNames
  | some holder =>
    let table ← t.image.slice holder.fileOffset.toNat holder.size.toNat
    match upToNul (table.toList.drop s.nameOffset.toNat) with
    | some bytes => return Utf8.decode bytes
    | none =>
      throw (.truncated ⟨holder.fileOffset.toNat + s.nameOffset.toNat, 1, t.image.size⟩)

/-- The first of some sections that has a name. The names of those before it must resolve. -/
def firstNamed {M : Type → Type} [Monad M] [MonadExcept Error M] (name : Section → M String)
    (wanted : String) : List Section → M Section
  | [] => throw (.noSuchSection wanted)
  | s :: rest => do
    if (← name s) = wanted then return s else firstNamed name wanted rest

def findIn (t : SectionTable) (wanted : String) (sections : List Section) :
    Except Error Section :=
  firstNamed t.name wanted sections

def find (t : SectionTable) (wanted : String) : Except Error Section :=
  t.findIn wanted t.sections

def content (t : SectionTable) (s : Section) : Except Error View :=
  s.content t.image

end SectionTable

end CodeSpans.Elf
