import CodeSpans.Report.CsvText
import CodeSpans.Report.JsonText
import CodeSpans.Report.PlainText
import CodeSpans.Text.Case

/-!
# Report formats

The formats a disassembly can be reported in, and the names they are chosen by.
-/

namespace CodeSpans

/-- A form of report. -/
inductive ReportFormat where
  | text
  | json
  | jsonLines
  | csv
deriving DecidableEq, Repr, Inhabited

namespace ReportFormat

def all : List ReportFormat := [.text, .json, .jsonLines, .csv]

/-- The format that is used when none is asked for. -/
def standard : ReportFormat := .text

def name : ReportFormat → String
  | .text => "text"
  | .json => "json"
  | .jsonLines => "jsonl"
  | .csv => "csv"

/-- The format of a name that is spelled exactly. -/
def ofExactName? (text : String) : Option ReportFormat :=
  all.find? (·.name == text)

/-- The format of a name in any case; JSON lines have a long name too. -/
def ofName? (text : String) : Option ReportFormat :=
  if Case.fold text == "jsonlines" then some .jsonLines else ofExactName? (Case.fold text)

/-- What is said of a name that no format has. -/
def unknownMessage (text : String) : String :=
  s!"Unknown output format: {text}"

def render : ReportFormat → Disassembly → String
  | .text => Report.PlainText.render
  | .json => Report.JsonText.render
  | .jsonLines => Report.JsonLines.render
  | .csv => Report.CsvText.render

end ReportFormat

end CodeSpans
