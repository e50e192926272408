import CodeSpans.Proofs.Report.Blocks
import CodeSpans.Proofs.Text.JsonReader
import CodeSpans.Proofs.Text.Lines
import CodeSpans.Report.JsonText

/-!
# Reading the JSON reports back

Readers that take the members they need from what `JsonReader` reads, by their keys and in whatever
order they stand. Of the report that is one value a block is read from each section
(`JsonText.read_render`); of the report in lines an entry is read from each record
(`JsonLines.read_render`), for which no record may go over more than one line (`oneLine_render`).
-/

namespace CodeSpans

open X86 Lines

/-! ## Parts of values -/

namespace Json

/-- The member of an object that stands under a key. -/
def member? (key : String) : Json → Option Json
  | .object members => members.lookup key
  | _ => none

theorem member?_object (key : String) (members : List (String × Json)) :
    (Json.object members).member? key = members.lookup key := rfl

def number? : Json → Option Nat
  | .number value => some value
  | _ => none

def text? : Json → Option String
  | .text value => some value
  | _ => none

def items? : Json → Option (List Json)
  | .array items => some items
  | _ => none

end Json

namespace Report

/-- The row that a value shows. -/
def row? (value : Json) : Option Row := do
  let offset ← (← value.member? "offset").number?
  let length ← (← value.member? "length").number?
  let bytes ← (← value.member? "bytes").text?
  return ⟨offset, length, ← Digits.bytes? bytes.toList⟩

/-- The offset that a value shows. -/
def offset? (value : Json) : Option Nat := do
  (← value.member? "offset").number?

/-- The members by which a value says all of an instruction, in whatever order they stand. -/
structure SaysInstruction (value : Json) (s : SectionSweep) (span : Span) : Prop where
  offset_eq : value.member? "offset" = some (.number span.start)
  length_eq : value.member? "length" = some (.number span.length.toNat)
  bytes_eq : value.member? "bytes" = some (.text (bytesText s span))
  map_eq : value.member? "opcode_map" = some (.text span.map.name)
  opcode_eq : value.member? "opcode" = some (.text (Hex.byteLiteral span.opcode))
  hasLegacyPrefix_eq : value.member? "had_legacy_prefixes" = some (.flag span.hasLegacyPrefix)
  hasRex_eq : value.member? "had_rex" = some (.flag span.hasRex)
  isVector_eq : value.member? "had_vex" = some (.flag span.isVector)
  hint_eq : value.member? "branch_hint" = span.hint.map fun hint => .text hint.name

theorem SaysInstruction.row?_eq {value : Json} {s : SectionSweep} {span : Span}
    (members : SaysInstruction value s span) : row? value = some (.ofSpan s span) := by
  have bytes := Digits.bytes?_spaced (s.bytesOf span)
  unfold row?
  simp [members.offset_eq, members.length_eq, members.bytes_eq, Json.number?, Json.text?, bytesText,
    bytes]
  rfl

section

variable (front : List (String × Json)) {back : List (String × Json)} {hint : Option BranchHint}

/-- Wherever a hint may stand, it has no part in what stands under other keys. -/
theorem member?_hinted {key : String} (other : key ≠ "branch_hint") :
    (Json.object (front ++ (hintMember hint ++ back))).member? key =
      (Json.object (front ++ back)).member? key := by
  have none : (hintMember hint).lookup key = none := by
    refine List.lookup_eq_none_iff.2 fun member mem => ?_
    obtain ⟨hint, -, rfl⟩ := List.mem_map.1 mem
    exact bne_iff_ne.2 other
  rw [Json.member?_object, Json.member?_object, List.lookup_append, List.lookup_append, none,
    Option.none_or, List.lookup_append]

theorem member?_hint (none : (Json.object (front ++ back)).member? "branch_hint" = none) :
    (Json.object (front ++ (hintMember hint ++ back))).member? "branch_hint" =
      hint.map fun hint => .text hint.name := by
  rw [Json.member?_object, List.lookup_append, Option.or_eq_none_iff] at none
  rw [Json.member?_object, List.lookup_append, List.lookup_append, none.1, none.2,
    Option.none_or, Option.or_none]
  cases hint with
  | none => rfl
  | some hint => rfl

/-- The hint may stand anywhere among the other members. -/
theorem SaysInstruction.of_hinted {s : SectionSweep} {span : Span}
    (rest : SaysInstruction (.object (front ++ back)) s { span with hint := none }) :
    SaysInstruction (.object (front ++ (hintMember span.hint ++ back))) s span where
  offset_eq := (member?_hinted front (by decide)).trans rest.offset_eq
  length_eq := (member?_hinted front (by decide)).trans rest.length_eq
  bytes_eq := (member?_hinted front (by decide)).trans rest.bytes_eq
  map_eq := (member?_hinted front (by decide)).trans rest.map_eq
  opcode_eq := (member?_hinted front (by decide)).trans rest.opcode_eq
  hasLegacyPrefix_eq := (member?_hinted front (by decide)).trans rest.hasLegacyPrefix_eq
  hasRex_eq := (member?_hinted front (by decide)).trans rest.hasRex_eq
  isVector_eq := (member?_hinted front (by decide)).trans rest.isVector_eq
  hint_eq := member?_hint front rest.hint_eq

end

theorem mapM_map_eq_some {α β γ : Type} {f : α → β} {g : β → Option γ} {h : α → γ}
    (each : ∀ a, g (f a) = some (h a)) (items : List α) :
    (items.map f).mapM g = some (items.map h) := by
  rw [List.mapM_map, show g ∘ f = fun a => pure (h a) from funext each, List.mapM_pure]
  rfl

/-! ## One value -/

namespace JsonText

/-- The block that a section's value shows. -/
def block? (value : Json) : Option Block := do
  let rows ← (← (← value.member? "instructions").items?).mapM row?
  match value.member? "stop" with
  | none => return ⟨rows, none⟩
  | some stop => return ⟨rows, some (← offset? stop)⟩

/-- The blocks that a text shows. -/
def read (text : List Char) : Option (List Block) := do
  let value ← JsonReader.read text
  (← (← value.member? "sections").items?).mapM block?

theorem saysInstruction (s : SectionSweep) (span : Span) :
    SaysInstruction (ofInstruction s span) s span := by
  unfold ofInstruction
  rw [← List.append_nil (hintMember span.hint)]
  exact .of_hinted _ ⟨rfl, rfl, rfl, rfl, rfl, rfl, rfl, rfl, rfl⟩

theorem block?_ofSection (s : SectionSweep) : block? (ofSection s) = some (.ofSweep s) := by
  have rows : (s.spans.map (ofInstruction s)).mapM row? = some (s.spans.map (.ofSpan s)) :=
    mapM_map_eq_some (fun span => (saysInstruction s span).row?_eq) s.spans
  unfold block? ofSection Block.ofSweep
  cases s.stop with
  | none =>
    simp [Json.member?, List.lookup_cons, Json.items?, rows]
  | some stop =>
    simp [Json.member?, List.lookup_cons, Json.items?, rows, ofStop, offset?, Json.number?]

/-- **The report that is one value shows the blocks of its sections.** -/
theorem read_render (d : Disassembly) :
    read (render d).toList = some (d.sections.map Block.ofSweep) := by
  have value := JsonReader.read_render JsonReader.loose_pretty 0 (ofDisassembly d)
  have sections : (d.sections.map ofSection).mapM block? = some (d.sections.map Block.ofSweep) :=
    mapM_map_eq_some block?_ofSection d.sections
  unfold read render
  rw [value]
  unfold ofDisassembly
  simp [Json.member?, List.lookup_cons, Json.items?, sections]

end JsonText

/-! ## A record on each line -/

namespace JsonLines

/-- The entries that a record shows. -/
def entriesOf? (record : Json) : Option (List Entry) := do
  let kind ← (← record.member? "type").text?
  if kind = "section" then return [.begins]
  else if kind = "instruction" then return [.row (← row? record)]
  else if kind = "stop" then return [.stop (← offset? record)]
  else none

/-- The entries that a line shows. -/
def shown? (line : List Char) : Option (List Entry) :=
  (JsonReader.read line).bind entriesOf?

/-- The blocks that a text shows. -/
def read (text : List Char) : Option (List Block) :=
  (entries? shown? (lines text)).bind blocks?

theorem saysInstruction (s : SectionSweep) (span : Span) :
    SaysInstruction (ofInstruction s span) s span :=
  .of_hinted [] ⟨rfl, rfl, rfl, rfl, rfl, rfl, rfl, rfl, rfl⟩

theorem type_ofInstruction (s : SectionSweep) (span : Span) :
    (ofInstruction s span).member? "type" = some (.text "instruction") :=
  member?_hinted [] (by decide)

theorem shown?_render (record : Json) :
    shown? (record.render Json.compact 0).toList = entriesOf? record := by
  unfold shown?
  rw [JsonReader.read_render JsonReader.loose_compact, Option.bind_some]

theorem entries?_records (s : SectionSweep) :
    entries? shown? ((records s).map fun record => (record.render Json.compact 0).toList) =
      some (Entry.ofSweep s) := by
  have begins : shown? ((ofSection s).render Json.compact 0).toList = some [.begins] := by
    rw [shown?_render]
    rfl
  have row : ∀ span ∈ s.spans, shown? ((ofInstruction s span).render Json.compact 0).toList =
      some [.row (.ofSpan s span)] := by
    intro span _
    rw [shown?_render, entriesOf?, type_ofInstruction, (saysInstruction s span).row?_eq]
    rfl
  have stop : ∀ stop, shown? ((ofStop s stop).render Json.compact 0).toList =
      some [.stop stop.offset] := by
    intro stop
    rw [shown?_render]
    rfl
  have front : entries? shown? [((ofSection s).render Json.compact 0).toList] =
      some [.begins] := by
    rw [entries?, begins]
    rfl
  have all := entries?_ofSweep front row stop
  unfold records
  simpa [Function.comp_def] using all

theorem notMem_escape (c : Char) : '\n' ∉ Json.escape c := by
  have digit : ∀ d < 16, '\n' ≠ Nat.digitChar d := by decide
  unfold Json.escape
  split_ifs with _ _ _ _ lineEnd _ _ control
  · decide
  · decide
  · decide
  · decide
  · decide
  · decide
  · decide
  · have high := digit (c.toNat / 16) (by omega)
    have low := digit (c.toNat % 16) (by omega)
    simp [high, low]
  · simpa using Ne.symm lineEnd

theorem oneLine_quote (s : String) : OneLine (Json.quote s) := by
  refine oneLine_ofList.2 fun mem => ?_
  rcases List.mem_append.1 mem with mem | mem
  · rcases List.mem_cons.1 mem with same | mem
    · cases same
    · obtain ⟨c, -, escaped⟩ := List.mem_flatMap.1 mem
      exact notMem_escape c escaped
  · cases List.mem_singleton.1 mem

theorem oneLine_enclose (depth : Nat) {opening closing : String} (opens : OneLine opening)
    (closes : OneLine closing) {items : List String} (each : ∀ item ∈ items, OneLine item) :
    OneLine (Json.enclose Json.compact depth opening closing items) := by
  have empty : OneLine "" := by decide
  have gap : ∀ depth, OneLine (Json.compact.gap depth) := fun _ => empty
  have between : OneLine ("," ++ Json.compact.gap (depth + 1)) :=
    oneLine_append.2 ⟨by decide, gap _⟩
  unfold Json.enclose
  cases items with
  | nil => exact oneLine_append.2 ⟨opens, closes⟩
  | cons item items =>
    have inner := oneLine_intercalate between each
    simp only [oneLine_append, opens, closes, inner, gap, and_true]

/-- A value without blanks is on one line: a line end in a string is written as an escape. -/
theorem oneLine_render (depth : Nat) (value : Json) :
    OneLine (value.render Json.compact depth) := by
  induction depth, value using Json.render.induct with
  | case1 depth =>
    rw [Json.render]
    decide
  | case2 depth value other =>
    rw [Json.render]
    cases value with
    | true => decide
    | false => decide
  | case3 depth value =>
    rw [Json.render]
    exact Digits.oneLine_toString value
  | case4 depth value =>
    rw [Json.render]
    exact oneLine_quote value
  | case5 depth items ih =>
    rw [Json.render]
    refine oneLine_enclose depth (by decide) (by decide) fun item mem => ?_
    obtain ⟨value, found, rfl⟩ := List.mem_map.1 mem
    exact ih value found
  | case6 depth members ih =>
    rw [Json.render]
    refine oneLine_enclose depth (by decide) (by decide) fun item mem => ?_
    obtain ⟨member, found, rfl⟩ := List.mem_map.1 mem
    have colon : OneLine Json.compact.colon := by decide
    exact oneLine_append.2 ⟨oneLine_append.2 ⟨oneLine_quote member.1, colon⟩, ih member found⟩

/-- The lines of a section without their line ends. -/
def linesOf (s : SectionSweep) : List (List Char) :=
  (records s).map fun record => (record.render Json.compact 0).toList

theorem toList_render (d : Disassembly) :
    (render d).toList = unlines (d.sections.flatMap linesOf) := by
  unfold render line linesOf
  simp [String.toList_join, List.flatMap_map, unlines_flatMap, unlines_map, List.flatMap_assoc]

theorem notMem_of_mem_linesOf {d : Disassembly} :
    ∀ line ∈ d.sections.flatMap linesOf, '\n' ∉ line := by
  intro line mem
  obtain ⟨s, -, inBlock⟩ := List.mem_flatMap.1 mem
  obtain ⟨record, -, rfl⟩ := List.mem_map.1 inBlock
  exact oneLine_render 0 record

/-- **The report in lines shows the blocks of its sections.** -/
theorem read_render (d : Disassembly) :
    read (render d).toList = some (d.sections.map Block.ofSweep) := by
  unfold read
  rw [toList_render, lines_unlines notMem_of_mem_linesOf]
  exact blocks?_of_items fun s _ => entries?_records s

end JsonLines

end Report

end CodeSpans
