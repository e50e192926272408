import CodeSpans.CommandLine.Arguments
import CodeSpans.Failure
import CodeSpans.Journal
import CodeSpans.Listing

/-!
# Runs of the command line

What a run prints and how it ends, given its arguments and what is read from
the path they name. A run that fails prints what failed and the chain of causes
behind it.
-/

namespace CodeSpans.CommandLine

open X86 Elf

/-- What failed, and the causes behind it, nearest first. -/
structure Trouble where
  text : String
  causes : List String
deriving DecidableEq, Repr, Inhabited

namespace Trouble

/-- A failed step, with an image error behind it. -/
def ofElf (error : Elf.Error) : Trouble := ⟨error.message, error.causes⟩

def ofFailure (failure : Failure) : Trouble := ⟨failure.message, failure.causes⟩

/-- The trouble as the cause of a failed step. -/
def during (step : String) (t : Trouble) : Trouble := ⟨step, t.text :: t.causes⟩

/-- The lines of the causes; they are numbered where there are several. -/
def causeLines : List String → List String
  | [only] => [s!"    {only}\n"]
  | causes => causes.mapIdx fun i cause => s!"{Column.right 5 (toString i)}: {cause}\n"

def render (t : Trouble) : String :=
  s!"Error: {t.text}\n"
    ++ (if t.causes.isEmpty then "" else "\nCaused by:\n")
    ++ String.join (causeLines t.causes)

end Trouble

/-- How a run ends. -/
structure Outcome where
  exit : UInt8
  output : String
  errors : String
  /-- What happened; the text is what is said about the time taken. -/
  journal : (elapsed : String) → List Journal.Event

/-- A run that prints output and nothing else. -/
def Outcome.success (output : String) (journal : String → List Journal.Event) : Outcome :=
  ⟨0, output, "", journal⟩

/-- The output of `--version`. -/
def versionText : String := "insnlen 0.1.0\n"

/-- The lines of `--help`. -/
def helpLines : List String :=
  [ "ELF64 section indexing and x86-64 instruction-length decoding",
    "",
    "Usage: insnlen [OPTIONS] <PATH>",
    "",
    "Arguments:",
    "  <PATH>  Path to ELF64 file",
    "",
    "Options:",
    "  -f, --format <FORMAT>      Output format: text (default), json, jsonl, csv",
    "  -s, --strategy <STRATEGY>  Section walking strategy: linear (default), parallel",
    "      --section <NAME>       Only disassemble the named section",
    "      --list-sections        Print the section header table instead of disassembling",
    "  -v, --verbose              Log at debug level",
    "  -h, --help                 Print help",
    "  -V, --version              Print version" ]

/-- The output of `--help`. -/
def helpText : String :=
  String.join (helpLines.map (· ++ "\n"))

/-- The sections that are to be walked. A section that is asked for by name must be
executable. -/
def walked (t : SectionTable) : Option String → Except Trouble (List Section)
  | none => .ok t.executable
  | some name => do
    let s ← (t.find name).mapError Trouble.ofElf
    if s.isExecutable then return [s] else throw ⟨s!"section {name} is not executable", []⟩

/-- The report that is asked for, and what happened on the way. -/
def report (o : Options) (t : SectionTable) :
    Except Trouble String × (String → List Journal.Event) :=
  if o.listSections then
    ((Listing.render t).mapError (Trouble.ofFailure ∘ .malformed), fun _ => [])
  else
    match walked t o.sectionName with
    | .error trouble => (.error trouble, fun _ => [])
    | .ok sections =>
      let result := o.strategy.run t decode sections
      ((result.map o.format.render).mapError (Trouble.ofFailure ∘ .malformed),
        fun elapsed => Journal.ofWalk o.strategy elapsed t decode sections result)

/-- Runs with what was read from the path. -/
def execute (o : Options) (file : Except FileFault View) : Outcome :=
  match file with
  | .error fault =>
    let trouble := (Trouble.ofFailure (.unreadable fault)).during s!"failed to read {o.path}"
    ⟨1, "", trouble.render, fun _ => []⟩
  | .ok image =>
    let opening := Journal.ofImage image
    match SectionTable.ofImage image with
    | .error error =>
      let trouble := (Trouble.ofElf error).during s!"failed to index sections of {o.path}"
      ⟨1, "", trouble.render, fun _ => opening⟩
    | .ok t =>
      let (result, journal) := report o t
      match result with
      | .error trouble => ⟨1, "", trouble.render, fun elapsed => opening ++ journal elapsed⟩
      | .ok output => .success output fun elapsed => opening ++ journal elapsed

/-- How a run ends that does not come to reading its path. -/
def Ending.outcome : Ending → Outcome
  | .version => .success versionText fun _ => []
  | .help => .success helpText fun _ => []
  | .fault wrong =>
    ⟨2, "", s!"{wrong.message}\n\nFor more information, try '--help'.\n", fun _ => []⟩

/-- A whole run, with a way to read a path. -/
def run (load : String → Except FileFault View) (arguments : List String) : Outcome :=
  match parse arguments with
  | .error ending => ending.outcome
  | .ok options => execute options (load options.path)

end CodeSpans.CommandLine
