import CodeSpans.Report.Field
import CodeSpans.Text.Json

/-!
# The JSON reports

`JsonText` is one value for the whole disassembly, printed on many lines.
`JsonLines` is a sequence of records, one on each line: a section, then its
instructions, then its stop if it has one. Members without a value are left
out.
-/

namespace CodeSpans.Report

open X86

/-- The hint member, if there is a hint. -/
def hintMember (hint : Option BranchHint) : List (String × Json) :=
  hint.toList.map fun hint => ("branch_hint", .text hint.name)

namespace JsonText

def ofInstruction (s : SectionSweep) (span : Span) : Json :=
  .object
    ([ ("offset", .number span.start),
       ("length", .number span.length.toNat),
       ("bytes", .text (bytesText s span)),
       ("opcode_map", .text span.map.name),
       ("opcode", .text (Hex.byteLiteral span.opcode)),
       ("had_legacy_prefixes", .flag span.hasLegacyPrefix),
       ("had_rex", .flag span.hasRex),
       ("had_vex", .flag span.isVector) ]
      ++ hintMember span.hint)

def ofStop (stop : Stop) : Json :=
  .object [("offset", .number stop.offset), ("error", .text stop.reason.message)]

def ofSection (s : SectionSweep) : Json :=
  .object
    ([ ("name", .text s.name),
       ("index", .number s.index),
       ("file_offset", .text (Hex.literal s.fileOffset.toNat)),
       ("size", .number s.size.toNat),
       ("complete", .flag s.isComplete),
       ("instructions", .array (s.spans.map (ofInstruction s))) ]
      ++ s.stop.toList.map fun place => ("stop", ofStop place))

def ofDisassembly (d : Disassembly) : Json :=
  .object
    [ ("instruction_count", .number d.instructionCount),
      ("sections", .array (d.sections.map ofSection)) ]

def render (d : Disassembly) : String :=
  (ofDisassembly d).render Json.pretty 0

end JsonText

namespace JsonLines

/-- The record of an instruction, its members in alphabetical order. -/
def ofInstruction (s : SectionSweep) (span : Span) : Json :=
  .object
    (hintMember span.hint ++
     [ ("bytes", .text (bytesText s span)),
       ("had_legacy_prefixes", .flag span.hasLegacyPrefix),
       ("had_rex", .flag span.hasRex),
       ("had_vex", .flag span.isVector),
       ("length", .number span.length.toNat),
       ("offset", .number span.start),
       ("opcode", .text (Hex.byteLiteral span.opcode)),
       ("opcode_map", .text span.map.name),
       ("section", .text s.name),
       ("type", .text "instruction") ])

/-- The record of a stop, its members in alphabetical order. -/
def ofStop (s : SectionSweep) (stop : Stop) : Json :=
  .object
    [ ("error", .text stop.reason.message),
      ("offset", .number stop.offset),
      ("section", .text s.name),
      ("type", .text "stop") ]

/-- The record of a section, its members in alphabetical order. -/
def ofSection (s : SectionSweep) : Json :=
  .object
    [ ("complete", .flag s.isComplete),
      ("file_offset", .text (Hex.literal s.fileOffset.toNat)),
      ("index", .number s.index),
      ("name", .text s.name),
      ("size", .number s.size.toNat),
      ("type", .text "section") ]

def records (s : SectionSweep) : List Json :=
  ofSection s :: s.spans.map (ofInstruction s) ++ s.stop.toList.map (ofStop s)

/-- A record with its line end. -/
def line (record : Json) : String :=
  record.render Json.compact 0 ++ "\n"

def render (d : Disassembly) : String :=
  String.join ((d.sections.flatMap records).map line)

end JsonLines

end CodeSpans.Report
