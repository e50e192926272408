import CodeSpans.Elf.SectionTable
import CodeSpans.Text.Column

/-!
# Listing sections

A line for each section of an image, in columns under a heading.
-/

namespace CodeSpans.Listing

open Elf

/-- A line of five columns and a last text. -/
def line (index name kind offset size last : String) : String :=
  let described := s!"{Column.right 4 index}  {Column.left 24 name} {Column.left 14 kind}"
  let placed := s!"{Column.right 10 offset} {Column.right 10 size}"
  s!"{described} {placed}  {last}\n"

def heading : String :=
  line "idx" "name" "type" "offset" "size" "exec"

/-- The line of a section of a name. -/
def sectionLine (s : Section) (name : String) : String :=
  line (toString s.index) name (kindName s.kind) (Hex.literal s.fileOffset.toNat)
    (Hex.literal s.size.toNat) (if s.isExecutable then "yes" else "no")

/-- The listing; every section must have a name. -/
def render (t : SectionTable) : Except Error String := do
  let lines ← t.sections.mapM fun s => return sectionLine s (← t.name s)
  return heading ++ String.join lines

end CodeSpans.Listing
