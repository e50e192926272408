import CodeSpans.Report.Format
import CodeSpans.Strategy

/-!
# Arguments of the command line

One path, and options before or behind it. A setting takes a value, a flag does
not, and each may be given once. A value stands behind its setting as the next
argument, or is attached with `=`, or directly behind a letter; only an
attached value may start with a dash, a lone dash apart. Letters of flags can be
run together. Behind `--` there are only paths. Arguments are taken in order:
the first that is wrong, or that asks for version or help, decides.
-/

namespace CodeSpans.CommandLine

/-- An option that takes a value. -/
inductive Setting where
  | format
  | strategy
  | sectionName
deriving DecidableEq, Repr, Inhabited

/-- An option that takes no value. -/
inductive Flag where
  | listSections
  | verbose
  | version
  | help
deriving DecidableEq, Repr, Inhabited

inductive Switch where
  | setting (s : Setting)
  | flag (f : Flag)
deriving DecidableEq, Repr, Inhabited

/-- The long names of options. -/
def longNames : List (String × Switch) :=
  [ ("format", .setting .format), ("strategy", .setting .strategy),
    ("section", .setting .sectionName), ("list-sections", .flag .listSections),
    ("verbose", .flag .verbose), ("version", .flag .version), ("help", .flag .help) ]

/-- The letters of options. -/
def letters : List (Char × Switch) :=
  [ ('f', .setting .format), ('s', .setting .strategy), ('v', .flag .verbose),
    ('V', .flag .version), ('h', .flag .help) ]

/-- What is wrong with an argument. -/
inductive UsageFault where
  /-- There is no such option, or there is a path too many. -/
  | unexpected (argument : String)
  | repeated (option : String)
  | missingValue (option : String)
  /-- The value is none the option can have. -/
  | badValue (value : String)
  | missingPath
deriving DecidableEq, Repr, Inhabited

def UsageFault.message : UsageFault → String
  | .unexpected argument => s!"error: unexpected argument '{argument}' found"
  | .repeated option => s!"error: the argument '{option}' cannot be used multiple times"
  | .missingValue option => s!"error: a value is required for '{option}' but none was supplied"
  | .badValue value => s!"error: invalid value '{value}'"
  | .missingPath => "error: the following required arguments were not provided:\n  <PATH>"

/-- Why the arguments do not lead to a run. -/
inductive Ending where
  | fault (fault : UsageFault)
  | version
  | help
deriving DecidableEq, Repr, Inhabited

/-- What has been said so far. -/
structure Draft where
  path : Option String := none
  format : Option ReportFormat := none
  strategy : Option Strategy := none
  /-- The section to be disassembled. -/
  sectionName : Option String := none
  listSections : Bool := false
  /-- The journal is to be told in more detail. -/
  verbose : Bool := false
deriving DecidableEq, Repr, Inhabited

structure Options where
  path : String
  format : ReportFormat
  strategy : Strategy
  /-- The section to be disassembled, all executable ones if not given. -/
  sectionName : Option String
  listSections : Bool
  /-- Tell the journal in more detail. -/
  verbose : Bool
deriving DecidableEq, Repr, Inhabited

namespace Draft

/-- The value that `found` gives a setting which must not have one yet. -/
def once {α : Type} (option value : String) (before : Option α) (found : Option α) :
    Except Ending α :=
  match found, before with
  | none, _ => .error (.fault (.badValue value))
  | some _, some _ => .error (.fault (.repeated option))
  | some a, none => .ok a

/-- Takes a setting with its value. -/
def set (d : Draft) (setting : Setting) (value : String) : Except Ending Draft :=
  match setting with
  | .format => do
    let format ← once "--format" value d.format (ReportFormat.ofExactName? value)
    return { d with format := some format }
  | .strategy => do
    let strategy ← once "--strategy" value d.strategy (Strategy.ofName? false value)
    return { d with strategy := some strategy }
  | .sectionName => do
    let name ← once "--section" value d.sectionName (some value)
    return { d with sectionName := some name }

def raise (d : Draft) : Flag → Except Ending Draft
  | .listSections =>
    if d.listSections then .error (.fault (.repeated "--list-sections"))
    else .ok { d with listSections := true }
  | .verbose =>
    if d.verbose then .error (.fault (.repeated "--verbose")) else .ok { d with verbose := true }
  | .version => .error .version
  | .help => .error .help

/-- Takes a path, which must not be empty. -/
def addPath (d : Draft) (path : String) : Except Ending Draft :=
  match d.path with
  | some _ => .error (.fault (.unexpected path))
  | none =>
    if path.isEmpty then .error (.fault (.badValue path)) else .ok { d with path := some path }

/-- Takes a run of letters. The last may be a setting that waits for its value. -/
def takeLetters (d : Draft) : List Char → Except Ending (Draft × Option Setting)
  | [] => .ok (d, none)
  | c :: rest =>
    match letters.lookup c with
    | none => .error (.fault (.unexpected (String.ofList ['-', c])))
    | some (.flag f) => do takeLetters (← d.raise f) rest
    | some (.setting s) =>
      match rest with
      | [] => .ok (d, some s)
      | '=' :: value => do return (← d.set s (String.ofList value), none)
      | value => do return (← d.set s (String.ofList value), none)

/-- What is to be done after all arguments. -/
def finish (d : Draft) : Except Ending Options :=
  match d.path with
  | none => .error (.fault .missingPath)
  | some path =>
    .ok {
      path
      format := d.format.getD .standard
      strategy := d.strategy.getD .standard
      sectionName := d.sectionName
      listSections := d.listSections
      verbose := d.verbose }

end Draft

/-- An argument by its shape. -/
inductive Shape where
  /-- Ends the options. -/
  | divider
  /-- A long option, perhaps with an attached value. -/
  | long (name : String) (value : Option String)
  /-- A run of letters. -/
  | short (letters : List Char)
  /-- A path or a value. -/
  | plain
deriving DecidableEq, Repr, Inhabited

/-- The shape of an argument. -/
def Shape.of (argument : String) : Shape :=
  match argument.toList with
  | ['-', '-'] => .divider
  | '-' :: '-' :: rest =>
    .long (String.ofList (rest.takeWhile (· != '=')))
      (match rest.dropWhile (· != '=') with
        | [] => none
        | _ :: value => some (String.ofList value))
  | '-' :: c :: rest => .short (c :: rest)
  | _ => .plain

/-- Takes arguments in order. -/
def takeArguments (d : Draft) : List String → Except Ending Draft
  | [] => .ok d
  | argument :: rest =>
    let waiting (d : Draft) (s : Setting) : Except Ending Draft :=
      match rest with
      | [] => .error (.fault (.missingValue argument))
      | value :: rest =>
        match Shape.of value with
        | .plain => do takeArguments (← d.set s value) rest
        | _ => .error (.fault (.missingValue argument))
    match Shape.of argument with
    | .divider => rest.foldlM Draft.addPath d
    | .plain => do takeArguments (← d.addPath argument) rest
    | .short run => do
      match ← d.takeLetters run with
      | (d, none) => takeArguments d rest
      | (d, some s) => waiting d s
    | .long name value =>
      match longNames.lookup name, value with
      | none, _ => .error (.fault (.unexpected argument))
      | some (.flag f), none => do takeArguments (← d.raise f) rest
      | some (.flag _), some _ => .error (.fault (.unexpected argument))
      | some (.setting s), some value => do takeArguments (← d.set s value) rest
      | some (.setting s), none => waiting d s

/-- What the arguments ask for. -/
def parse (arguments : List String) : Except Ending Options := do
  (← takeArguments {} arguments).finish

end CodeSpans.CommandLine
