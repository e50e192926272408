import CodeSpans.Report.Field
import CodeSpans.Text.Csv

/-!
# The comma-separated report

A record for each instruction and each stop, behind a heading. Where there is
no record there is no heading either.
-/

namespace CodeSpans.Report.CsvText

open X86

def heading : List String :=
  ["section", "offset", "length", "bytes", "opcode_map", "opcode", "prefixes", "branch_hint",
    "error"]

def ofInstruction (s : SectionSweep) (span : Span) : List String :=
  [ s.name,
    Hex.literal span.start,
    toString span.length.toNat,
    bytesText s span,
    span.map.name,
    Hex.byteLiteral span.opcode,
    prefixSummary span.toInstruction,
    (span.hint.map BranchHint.name).getD "",
    "" ]

def ofStop (s : SectionSweep) (stop : Stop) : List String :=
  [s.name, Hex.literal stop.offset, "", "", "", "", "", "", stop.reason.message]

def records (s : SectionSweep) : List (List String) :=
  s.spans.map (ofInstruction s) ++ s.stop.toList.map (ofStop s)

def allRecords (d : Disassembly) : List (List String) :=
  d.sections.flatMap records

def render (d : Disassembly) : String :=
  match allRecords d with
  | [] => ""
  | records => String.join ((heading :: records).map Csv.line)

end CodeSpans.Report.CsvText
