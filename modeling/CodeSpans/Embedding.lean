import CodeSpans.Failure
import CodeSpans.Report.Format
import CodeSpans.Strategy
import CodeSpans.X86.Instruction

/-!
# Entry points for other programs

Another program names strategy and format as text, in any case, and gets the
report as text. A fault is either a value that cannot be used or a file that
cannot be read.
-/

namespace CodeSpans.Embedding

open X86 Elf

/-- Why a call has no report. -/
inductive Fault where
  | unknownStrategy (text : String)
  | unknownFormat (text : String)
  | notIndexed (error : Elf.Error)
  | notSwept (error : Elf.Error)
  | notRead (path : String) (fault : FileFault)
deriving DecidableEq, Repr, Inhabited

def Fault.message : Fault → String
  | .unknownStrategy text => s!"Unknown strategy: {text}"
  | .unknownFormat text => ReportFormat.unknownMessage text
  | .notIndexed error => s!"Failed to parse binary: {error.message}"
  | .notSwept error => s!"Disassembly failed: {(Failure.malformed error).message}"
  | .notRead path fault => s!"Failed to read file {path}: {(Failure.unreadable fault).message}"

/-- The report of an image. Names are looked at before the image, the strategy first. -/
def disassemble (image : View) (strategy format : String) : Except Fault String := do
  let some strategy := Strategy.ofName? true strategy | throw (.unknownStrategy strategy)
  let some format := ReportFormat.ofName? format | throw (.unknownFormat format)
  let t ← (SectionTable.ofImage image).mapError .notIndexed
  let d ← (strategy.run t decode t.executable).mapError .notSwept
  return format.render d

/-- The report of a file. The file is read before the names are looked at. -/
def disassembleFile (load : String → Except FileFault View) (path strategy format : String) :
    Except Fault String := do
  let image ← (load path).mapError (.notRead path)
  disassemble image strategy format

def formatConstants : List (String × String) :=
  [ ("TEXT", ReportFormat.text.name), ("JSON", ReportFormat.json.name),
    ("JSONLINES", ReportFormat.jsonLines.name), ("CSV", ReportFormat.csv.name) ]

def strategyConstants : List (String × String) :=
  [("LINEAR", Strategy.linear.name), ("PARALLEL", Strategy.parallel.name)]

end CodeSpans.Embedding
