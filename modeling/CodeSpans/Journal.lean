import CodeSpans.Strategy
import CodeSpans.X86.Instruction

/-!
# The journal

What a run has to say on its way, as events of three levels: the header of the
image, every instruction found through a legacy opcode map, every section
swept, and the end of the walk.
-/

namespace CodeSpans

open X86 Elf

namespace Journal

/-- How much an event matters, most first. -/
inductive Level where
  /-- Something is not as expected. -/
  | warn
  /-- A step is done. -/
  | debug
  /-- A detail of a step. -/
  | trace
deriving DecidableEq, Repr, Inhabited

namespace Level

def name : Level → String
  | .warn => "WARN"
  | .debug => "DEBUG"
  | .trace => "TRACE"

/-- Place among the levels, the one that matters most first. -/
def rank : Level → Nat
  | .warn => 0
  | .debug => 1
  | .trace => 2

end Level

structure Event where
  /-- How much it matters. -/
  level : Level
  /-- What it says. -/
  text : String
deriving DecidableEq, Repr, Inhabited

def Event.line (e : Event) : String :=
  s!"{e.level.name} {e.text}"

/-- The events that matter as much as a level or more. -/
def upTo (level : Level) (events : List Event) : List Event :=
  events.filter fun e => e.level.rank ≤ level.rank

/-- What is said of an image for a machine other than x86-64. -/
def foreignMachine (machine : UInt16) : Event :=
  ⟨.warn, s!"e_machine is {machine.toNat}, not x86-64; decoding as x86-64 anyway"⟩

/-- What is said of the section header table. -/
def tableFound (h : Header) : Event :=
  let table := s!"section header table at {Hex.literal h.tableOffset.toNat}"
  let entries := s!"{h.entryCount.toNat} entries of {h.entrySize.toNat} bytes"
  ⟨.debug, s!"{table}: {entries}, names in section {h.namesIndex.toNat}"⟩

/-- Events of a header that was read. -/
def ofHeader (h : Header) : List Event :=
  (if h.machine = machineX86_64 then [] else [foreignMachine h.machine]) ++ [tableFound h]

/-- Events of an image: those of its header, if that can be read. -/
def ofImage (image : View) : List Event :=
  match checkIdentification image, Header.read image with
  | .ok (), .ok header => ofHeader header
  | _, _ => []

/-- A map in the record of an instruction. -/
def mapWord : OpcodeMap → String
  | .oneByte => "OneByte"
  | .twoByte => "TwoByte"
  | .map38 => "ThreeByte0F38"
  | .map3a => "ThreeByte0F3A"

/-- A hint in the record of an instruction. -/
def hintWord : Option BranchHint → String
  | none => "None"
  | some .taken => "Some(Taken)"
  | some .notTaken => "Some(NotTaken)"

def spanRecord (s : Span) : String :=
  let place := s!"start_offset: {s.start}, length: {s.length.toNat}"
  let before :=
    s!"had_legacy_prefixes: {s.hasLegacyPrefix}, had_rex: {s.hasRex}, had_vex: {s.isVector}"
  let opcode := s!"opcode_map: {mapWord s.map}, opcode: {s.opcode.toNat}"
  s!"InstructionSpan \x7b {place}, {before}, {opcode}, branch_hint: {hintWord s.hint} \x7d"

/-- Whether an instruction was found through a legacy opcode map: vector encodings and the
branch marker are not. -/
def isLegacy (code : View) (s : Span) : Bool :=
  !s.isVector && (windowAt code s.start).take branchMarker.length != branchMarker

def spanFound (span : Span) : Event :=
  ⟨.trace, s!"decoded {spanRecord span}"⟩

def sectionSwept (s : SectionSweep) : Event :=
  ⟨.debug, s!"{s.name}: {s.size.toNat} bytes, {s.spans.length} instructions"⟩

def sectionStopped (s : SectionSweep) (stop : Stop) : Event :=
  let place := Hex.literal stop.offset
  ⟨.warn, s!"{s.name}: decoding stopped at +{place}: {stop.reason.message}"⟩

/-- Events of a section that was swept. -/
def ofSweep (s : SectionSweep) : List Event :=
  (s.spans.filter (isLegacy s.code)).map spanFound ++ [sectionSwept s]
    ++ s.stop.toList.map (sectionStopped s)

/-- The sweeps of some sections up to the first that cannot be swept. -/
def sweptBefore (t : SectionTable) (decoder : Decoder) : List Section → List SectionSweep
  | [] => []
  | s :: rest =>
    match t.sweep decoder s with
    | .ok swept => swept :: sweptBefore t decoder rest
    | .error _ => []

/-- The event at the end of a walk that took `elapsed`. -/
def ofEnd (strategy : Strategy) (elapsed : String) (d : Disassembly) : Event :=
  let walk := s!"{strategy.title} of {d.sections.length} sections"
  ⟨.debug, s!"{walk} completed in {elapsed}: {d.instructionCount} instructions"⟩

/-- Events of a walk over some sections that ended with `result`. -/
def ofWalk (strategy : Strategy) (elapsed : String) (t : SectionTable) (decoder : Decoder)
    (sections : List Section) (result : Except Elf.Error Disassembly) : List Event :=
  match result with
  | .ok d => d.sections.flatMap ofSweep ++ [ofEnd strategy elapsed d]
  | .error _ => (sweptBefore t decoder sections).flatMap ofSweep

end Journal

end CodeSpans
