import CodeSpans.Proofs.Report.Items
import CodeSpans.Proofs.Report.JsonTextReader

/-!
# The JSON reports in full

Both JSON reports are read back to all that they say of each section (`Account`): the heading, the
instructions with their bytes, and the stop. So reports are the same only where all of this is the
same. The report in lines has a line for each heading, instruction and stop, in that order
(`json_reports_faithful`).
-/

namespace CodeSpans

open X86 Lines

namespace Json

def flag? : Json → Option Bool
  | .flag value => some value
  | _ => none

end Json

namespace Report

/-- What identifies a section, and whether it was swept to its end. -/
structure Heading where
  name : String
  index : Nat
  fileOffset : UInt64
  size : UInt64
  isComplete : Bool
deriving DecidableEq, Repr

/-- All that is said of a section. -/
structure Account extends Heading where
  listed : List Listed
  halt : Option Halt
deriving DecidableEq, Repr

def Heading.ofSweep (s : SectionSweep) : Heading where
  name := s.name
  index := s.index
  fileOffset := s.fileOffset
  size := s.size
  isComplete := s.isComplete

def Account.ofSweep (s : SectionSweep) : Account where
  toHeading := .ofSweep s
  listed := s.spans.map (.ofSpan s)
  halt := s.stop.map .ofStop

/-! ## Readers -/

/-- The instruction that a value shows. -/
def listed? (value : Json) : Option Listed := do
  let span : Span := {
    start := ← (← value.member? "offset").number?
    length := .ofNat (← (← value.member? "length").number?)
    hasLegacyPrefix := ← (← value.member? "had_legacy_prefixes").flag?
    hasRex := ← (← value.member? "had_rex").flag?
    isVector := ← (← value.member? "had_vex").flag?
    map := ← OpcodeMap.ofName? (← (← value.member? "opcode_map").text?)
    opcode := ← Digits.byteLiteral? (← (← value.member? "opcode").text?).toList
    hint := ((value.member? "branch_hint").bind Json.text?).bind BranchHint.ofName? }
  return ⟨span, ← Digits.bytes? (← (← value.member? "bytes").text?).toList⟩

theorem SaysInstruction.listed?_eq {value : Json} {s : SectionSweep} {span : Span}
    (members : SaysInstruction value s span) : listed? value = some (.ofSpan s span) := by
  have hint : (value.member? "branch_hint").bind Json.text? = span.hint.map BranchHint.name := by
    rw [members.hint_eq]
    cases span.hint with
    | none => rfl
    | some hint => rfl
  have named : (span.hint.map BranchHint.name).bind BranchHint.ofName? = span.hint := by
    cases span.hint with
    | none => rfl
    | some hint => exact hint.ofName?_name
  unfold listed?
  simp [members.offset_eq, members.length_eq, members.bytes_eq, members.map_eq, members.opcode_eq,
    members.hasLegacyPrefix_eq, members.hasRex_eq, members.isVector_eq, hint, named, Json.number?,
    Json.text?, Json.flag?, bytesText, Digits.bytes?_spaced, Digits.byteLiteral?_byteLiteral,
    OpcodeMap.ofName?_name]
  rfl

/-- The stop that a value shows. -/
def halt? (value : Json) : Option Halt := do
  return ⟨← (← value.member? "offset").number?, ← (← value.member? "error").text?⟩

/-- The heading that a value shows. -/
def heading? (value : Json) : Option Heading := do
  return {
    name := ← (← value.member? "name").text?
    index := ← (← value.member? "index").number?
    fileOffset := .ofNat (← Digits.literal? (← (← value.member? "file_offset").text?).toList)
    size := .ofNat (← (← value.member? "size").number?)
    isComplete := ← (← value.member? "complete").flag? }

/-- The members by which a value says all of a heading, in whatever order they stand. -/
structure SaysHeading (value : Json) (s : SectionSweep) : Prop where
  name_eq : value.member? "name" = some (.text s.name)
  index_eq : value.member? "index" = some (.number s.index)
  fileOffset_eq : value.member? "file_offset" = some (.text (Hex.literal s.fileOffset.toNat))
  size_eq : value.member? "size" = some (.number s.size.toNat)
  isComplete_eq : value.member? "complete" = some (.flag s.isComplete)

theorem SaysHeading.heading?_eq {value : Json} {s : SectionSweep} (members : SaysHeading value s) :
    heading? value = some (.ofSweep s) := by
  unfold heading?
  simp [members.name_eq, members.index_eq, members.fileOffset_eq, members.size_eq,
    members.isComplete_eq, Json.number?, Json.text?, Json.flag?, Digits.literal?_literal]
  rfl

/-! ## One value -/

namespace JsonText

/-- The account that a section's value shows. -/
def account? (value : Json) : Option Account := do
  let heading ← heading? value
  let listed ← (← (← value.member? "instructions").items?).mapM listed?
  match value.member? "stop" with
  | none => return { heading with listed, halt := none }
  | some stop => return { heading with listed, halt := some (← halt? stop) }

/-- The accounts that a text shows. -/
def accounts? (text : List Char) : Option (List Account) := do
  let value ← JsonReader.read text
  (← (← value.member? "sections").items?).mapM account?

theorem halt?_ofStop (stop : Stop) : halt? (ofStop stop) = some (.ofStop stop) := rfl

theorem saysHeading (s : SectionSweep) : SaysHeading (ofSection s) s :=
  ⟨rfl, rfl, rfl, rfl, rfl⟩

theorem account?_ofSection (s : SectionSweep) : account? (ofSection s) = some (.ofSweep s) := by
  have listed : (s.spans.map (ofInstruction s)).mapM listed? = some (s.spans.map (.ofSpan s)) :=
    mapM_map_eq_some (fun span => (saysInstruction s span).listed?_eq) s.spans
  unfold account? Account.ofSweep
  rw [(saysHeading s).heading?_eq]
  unfold ofSection
  cases s.stop with
  | none => simp [Json.member?, List.lookup_cons, Json.items?, listed]
  | some stop => simp [Json.member?, List.lookup_cons, Json.items?, listed, halt?_ofStop]

/-- The report that is one value is read back in full. -/
theorem accounts?_render (d : Disassembly) :
    accounts? (render d).toList = some (d.sections.map Account.ofSweep) := by
  have value := JsonReader.read_render JsonReader.loose_pretty 0 (ofDisassembly d)
  have sections : (d.sections.map ofSection).mapM account? =
      some (d.sections.map Account.ofSweep) := mapM_map_eq_some account?_ofSection d.sections
  unfold accounts? render
  rw [value]
  unfold ofDisassembly
  simp [Json.member?, List.lookup_cons, Json.items?, sections]

end JsonText

/-! ## A record on each line -/

/-- What a line is about. -/
inductive Mark where
  | heading (heading : Heading)
  | item (item : Item)
deriving DecidableEq, Repr

/-- The heading of a section, and then its items. -/
def Mark.ofSweep (s : SectionSweep) : List Mark :=
  .heading (.ofSweep s) :: (Item.ofSweep s).map .item

/-- The items up to the next heading, and each heading behind them with its items. -/
def group : List Mark → List Item × List (Heading × List Item)
  | [] => ([], [])
  | .heading heading :: rest => ([], (heading, (group rest).1) :: (group rest).2)
  | .item item :: rest => (item :: (group rest).1, (group rest).2)

theorem group_items (items : List Item) (rest : List Mark) :
    group (items.map .item ++ rest) = (items ++ (group rest).1, (group rest).2) := by
  induction items with
  | nil => rfl
  | cons item items ih => rw [List.map_cons, List.cons_append, group, ih, List.cons_append]

/-- Sections are told apart by their headings. -/
theorem group_flatMap (sections : List SectionSweep) :
    group (sections.flatMap Mark.ofSweep) =
      ([], sections.map fun s => (Heading.ofSweep s, Item.ofSweep s)) := by
  induction sections with
  | nil => rfl
  | cons s sections ih =>
    rw [List.flatMap_cons, Mark.ofSweep, List.cons_append, group, group_items, ih, List.append_nil,
      List.map_cons]

namespace Item

def listed? : Item → Option Listed
  | instruction _ listed => some listed
  | stop _ _ => none

def halt? : Item → Option Halt
  | instruction _ _ => none
  | stop _ halt => some halt

end Item

/-- What a heading and items say together. -/
def Account.ofItems (heading : Heading) (items : List Item) : Account :=
  { heading with listed := items.filterMap Item.listed?, halt := (items.filterMap Item.halt?).head? }

theorem Account.ofItems_ofSweep (s : SectionSweep) :
    ofItems (.ofSweep s) (Item.ofSweep s) = ofSweep s := by
  unfold ofItems ofSweep Item.ofSweep
  cases s.stop with
  | none => simp [List.filterMap_map, Function.comp_def, Item.listed?, Item.halt?]
  | some stop =>
    simp [List.filterMap_append, List.filterMap_map, Function.comp_def, Item.listed?, Item.halt?]

namespace JsonLines

/-- What a record says. -/
def markOf? (record : Json) : Option Mark := do
  let kind ← (← record.member? "type").text?
  if kind = "section" then return .heading (← heading? record)
  let name ← (← record.member? "section").text?
  if kind = "instruction" then return .item (.instruction name (← listed? record))
  else if kind = "stop" then return .item (.stop name (← halt? record))
  else none

/-- What a line says. -/
def mark? (line : List Char) : Option Mark :=
  (JsonReader.read line).bind markOf?

/-- The accounts that a text shows. -/
def accounts? (text : List Char) : Option (List Account) := do
  let marks ← (lines text).mapM mark?
  return (group marks).2.map fun part => .ofItems part.1 part.2

theorem section_ofInstruction (s : SectionSweep) (span : Span) :
    (ofInstruction s span).member? "section" = some (.text s.name) :=
  member?_hinted [] (by decide)

theorem saysHeading (s : SectionSweep) : SaysHeading (ofSection s) s :=
  ⟨rfl, rfl, rfl, rfl, rfl⟩

/-- A line says what its record says. -/
theorem mark?_render (record : Json) :
    mark? (record.render Json.compact 0).toList = markOf? record := by
  unfold mark?
  rw [JsonReader.read_render JsonReader.loose_compact, Option.bind_some]

theorem map_mark?_linesOf (s : SectionSweep) :
    (linesOf s).map mark? = (Mark.ofSweep s).map some := by
  have heading : mark? ((ofSection s).render Json.compact 0).toList =
      some (.heading (.ofSweep s)) := by
    rw [mark?_render, markOf?, (saysHeading s).heading?_eq]
    rfl
  have instruction : ∀ span, mark? ((ofInstruction s span).render Json.compact 0).toList =
      some (.item (.instruction s.name (.ofSpan s span))) := by
    intro span
    rw [mark?_render, markOf?, type_ofInstruction, section_ofInstruction,
      (saysInstruction s span).listed?_eq]
    rfl
  have stop : ∀ stop, mark? ((ofStop s stop).render Json.compact 0).toList =
      some (.item (.stop s.name (.ofStop stop))) := by
    intro stop
    rw [mark?_render]
    rfl
  unfold linesOf records Mark.ofSweep Item.ofSweep
  simp [Function.comp_def, heading, instruction, stop]

theorem map_mark?_lines (d : Disassembly) :
    (d.sections.flatMap linesOf).map mark? = (d.sections.flatMap Mark.ofSweep).map some := by
  rw [List.map_flatMap, List.map_flatMap]
  exact List.flatMap_congr fun s _ => map_mark?_linesOf s

/-- The report in lines is read back in full. -/
theorem accounts?_render (d : Disassembly) :
    accounts? (render d).toList = some (d.sections.map Account.ofSweep) := by
  have marks : (d.sections.flatMap linesOf).mapM mark? =
      some (d.sections.flatMap Mark.ofSweep) := by
    have each := mapM_map_eq_some (f := some) (g := id) (h := id) (fun _ => rfl)
      (d.sections.flatMap Mark.ofSweep)
    rwa [← map_mark?_lines, List.mapM_map, Function.id_comp, List.map_id] at each
  unfold accounts?
  rw [toList_render, lines_unlines notMem_of_mem_linesOf, marks, Option.bind_eq_bind,
    Option.bind_some, group_flatMap, List.map_map]
  exact congrArg some (List.map_congr_left fun s _ => Account.ofItems_ofSweep s)

end JsonLines

/-- **The JSON reports are faithful.** The report in lines is a sequence of lines, each with a line end
behind it and none within: for each section the heading, then each instruction, then the stop, each
read back from its line. Whatever the sections are called, reports of one of the two forms are the
same only where they are about sections of the same names, indexes, offsets and sizes, with the same
instructions, bytes and stops. -/
theorem json_reports_faithful (d : Disassembly) :
    (∃ written, (JsonLines.render d).toList = unlines written ∧
      (∀ line ∈ written, '\n' ∉ line) ∧
      written.map JsonLines.mark? = (d.sections.flatMap Mark.ofSweep).map some) ∧
    ∀ d' : Disassembly,
      (JsonLines.render d = JsonLines.render d' ∨ JsonText.render d = JsonText.render d') →
      d.sections.map Account.ofSweep = d'.sections.map Account.ofSweep := by
  constructor
  · exact ⟨d.sections.flatMap JsonLines.linesOf, JsonLines.toList_render d,
      JsonLines.notMem_of_mem_linesOf, JsonLines.map_mark?_lines d⟩
  · intro d' same
    rcases same with same | same
    · have accounts := JsonLines.accounts?_render d
      rw [same, JsonLines.accounts?_render] at accounts
      exact (Option.some_inj.1 accounts).symm
    · have accounts := JsonText.accounts?_render d
      rw [same, JsonText.accounts?_render] at accounts
      exact (Option.some_inj.1 accounts).symm

/-- A section whose name has a line end in it still has one line for each record. Of two sections that
differ in a byte behind the stop the reports are the same, and so is all that they say. -/
theorem json_reports_faithful_of_unswept_bytes :
    ∃ d d' : Disassembly, d ≠ d' ∧ d.sections.map (·.name) = ["a\nb"] ∧
      (∃ written, (JsonLines.render d).toList = unlines written ∧ written.length = 3) ∧
      JsonLines.render d = JsonLines.render d' ∧ JsonText.render d = JsonText.render d' ∧
      d.sections.map Account.ofSweep = d'.sections.map Account.ofSweep := by
  let swept (code : List UInt8) : Disassembly := ⟨[{
    index := 1, name := "a\nb", fileOffset := 0x40, size := 3, code := .ofList code,
    spans := [⟨⟨1, false, false, false, .oneByte, 0x90, none⟩, 0⟩],
    stop := some ⟨1, .unknownOpcode .oneByte 0x06⟩ }]⟩
  let d := swept [0x90, 0x06, 0x00]
  let d' := swept [0x90, 0x06, 0x01]
  have sameLines : JsonLines.render d = JsonLines.render d' := rfl
  have sameText : JsonText.render d = JsonText.render d' :=
    congrArg (Json.render Json.pretty 0)
      (show JsonText.ofDisassembly d = JsonText.ofDisassembly d' from rfl)
  obtain ⟨⟨written, text, -, marks⟩, faithful⟩ := json_reports_faithful d
  have length := congrArg List.length marks
  rw [List.length_map, List.length_map] at length
  exact ⟨d, d', by decide, rfl, ⟨written, text, length⟩, sameLines, sameText,
    faithful d' (.inl sameLines)⟩

end Report

end CodeSpans
