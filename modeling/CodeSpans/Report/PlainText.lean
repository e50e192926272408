import CodeSpans.Report.Field
import CodeSpans.Text.Column

/-!
# The plain text report

A block for each section: a heading, a line for each instruction, a line for
the stop if there is one, and an empty line.
-/

namespace CodeSpans.Report.PlainText

open X86

/-- The line of an instruction: offset, bytes, length, map, and what there is of prefixes and
hint. -/
def instructionLine (s : SectionSweep) (span : Span) : String :=
  let offset := Hex.padded 6 span.start
  let bytes := Column.left 44 (bytesText s span)
  let length := Column.right 2 (toString span.length.toNat)
  let summary := prefixSummary span.toInstruction
  let flags := if summary.isEmpty then "" else s!" [{summary}]"
  let hint := match span.hint with
    | none => ""
    | some hint => s!" hint={hint.name}"
  s!"  +0x{offset}: {bytes} {length}  {span.map.name}{flags}{hint}\n"

/-- The line of a stop. -/
def stopLine (stop : Stop) : String :=
  s!"  stopped at +{Hex.literal stop.offset}: {stop.reason.message}\n"

/-- The block of a section. -/
def block (s : SectionSweep) : String :=
  s!"Disassembly of section <{s.name}>:\n\n"
    ++ String.join (s.spans.map (instructionLine s))
    ++ String.join (s.stop.toList.map stopLine)
    ++ "\n"

def render (d : Disassembly) : String :=
  String.join (d.sections.map block)

end CodeSpans.Report.PlainText
