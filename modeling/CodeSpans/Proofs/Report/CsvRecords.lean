import CodeSpans.Proofs.Report.CsvTextReader
import CodeSpans.Proofs.Report.Items

/-!
# The comma-separated report record by record

Whatever the sections are called, the report is read as the heading and a record for each item, in
order, from which the item is read back (`read_render_items`). Without items there is no record at
all.
-/

namespace CodeSpans.Report.CsvText

open X86

/-! ## The reader of a record -/

/-- Whether a flag is among those with commas between them. -/
def hasFlag (flag : String) (summary : List Char) : Bool :=
  (summary.splitOn ',').contains flag.toList

/-- The item that a record shows. A record without a length is a stop. -/
def item? : List (List Char) → Option Item
  | [name, place, length, bytes, map, opcode, flags, hint, message] => do
    let offset ← Digits.literal? place
    if length = [] then return .stop (.ofList name) ⟨offset, .ofList message⟩
    else
      let span : Span := {
        start := offset
        length := .ofNat (← Digits.number? 10 length)
        hasLegacyPrefix := hasFlag "legacy" flags
        hasRex := hasFlag "rex" flags
        isVector := hasFlag "vex" flags
        map := ← OpcodeMap.ofName? (.ofList map)
        opcode := ← Digits.byteLiteral? opcode
        hint := BranchHint.ofName? (.ofList hint) }
      return .instruction (.ofList name) ⟨span, ← Digits.bytes? bytes⟩
  | _ => none

/-- A record has all fields and shows an item, and its length tells of which kind the item is. -/
structure Shows (item : Item) (record : List (List Char)) : Prop where
  length_eq : record.length = 9
  item?_eq : item? record = some item
  noLength_iff : record[2]? = some [] ↔ item.isStop

/-! ## Records are read back -/

theorem hasFlag_prefixSummary (i : Instruction) :
    hasFlag "legacy" (prefixSummary i).toList = i.hasLegacyPrefix ∧
      hasFlag "rex" (prefixSummary i).toList = i.hasRex ∧
        hasFlag "vex" (prefixSummary i).toList = i.isVector := by
  unfold prefixSummary
  generalize i.hasLegacyPrefix = legacy, i.hasRex = rex, i.isVector = vector
  revert legacy rex vector
  decide

theorem ofName?_hint (hint : Option BranchHint) :
    BranchHint.ofName? ((hint.map BranchHint.name).getD "") = hint := by
  cases hint with
  | none => rfl
  | some hint => exact hint.ofName?_name

theorem item?_ofInstruction (s : SectionSweep) (span : Span) :
    item? ((ofInstruction s span).map String.toList) =
      some (.instruction s.name (.ofSpan s span)) := by
  obtain ⟨legacy, rex, vector⟩ := hasFlag_prefixSummary span.toInstruction
  unfold ofInstruction bytesText
  simp only [List.map_cons, List.map_nil, item?, Digits.literal?_literal, Option.bind_eq_bind,
    Option.bind_some, if_neg (Digits.toString_ne_nil _), Digits.number?_toString, String.ofList_toList,
    OpcodeMap.ofName?_name, Digits.byteLiteral?_byteLiteral, Digits.bytes?_spaced, legacy, rex,
    vector, ofName?_hint, UInt8.ofNat_toNat]
  rfl

theorem item?_ofStop (s : SectionSweep) (stop : Stop) :
    item? ((ofStop s stop).map String.toList) = some (.stop s.name (.ofStop stop)) := by
  unfold ofStop
  simp only [List.map_cons, List.map_nil, item?, Digits.literal?_literal, Option.bind_eq_bind,
    Option.bind_some, String.ofList_toList]
  rfl

theorem shows_ofInstruction (s : SectionSweep) (span : Span) :
    Shows (.instruction s.name (.ofSpan s span)) ((ofInstruction s span).map String.toList) where
  length_eq := rfl
  item?_eq := item?_ofInstruction s span
  noLength_iff := by
    refine iff_of_false (fun none => ?_) Bool.false_ne_true
    exact Digits.toString_ne_nil _ (Option.some_inj.1 none)

theorem shows_ofStop (s : SectionSweep) (stop : Stop) :
    Shows (.stop s.name (.ofStop stop)) ((ofStop s stop).map String.toList) where
  length_eq := rfl
  item?_eq := item?_ofStop s stop
  noLength_iff := iff_of_true rfl rfl

theorem forall₂_records (s : SectionSweep) :
    List.Forall₂ Shows (Item.ofSweep s) ((records s).map (List.map String.toList)) := by
  unfold Item.ofSweep records
  rw [List.map_append, List.map_map, List.map_map]
  refine List.rel_append ?_ ?_
  · rw [List.forall₂_map_left_iff, List.forall₂_map_right_iff]
    exact List.forall₂_same.2 fun span _ => shows_ofInstruction s span
  · rw [List.forall₂_map_left_iff, List.forall₂_map_right_iff]
    exact List.forall₂_same.2 fun stop _ => shows_ofStop s stop

theorem forall₂_allRecords (d : Disassembly) :
    List.Forall₂ Shows (d.sections.flatMap Item.ofSweep)
      ((allRecords d).map (List.map String.toList)) := by
  unfold allRecords
  induction d.sections with
  | nil => exact .nil
  | cons s sections ih =>
    rw [List.flatMap_cons, List.flatMap_cons, List.map_append]
    exact List.rel_append (forall₂_records s) ih

theorem allRecords_eq_nil_iff {d : Disassembly} :
    allRecords d = [] ↔ ∀ s ∈ d.sections, s.spans = [] ∧ s.stop = none := by
  have length := (forall₂_allRecords d).length_eq
  rw [List.length_map] at length
  rw [← List.length_eq_zero_iff, ← length, List.length_eq_zero_iff, List.flatMap_eq_nil_iff]
  exact forall₂_congr fun _ _ => Item.ofSweep_eq_nil_iff

/-- **The comma-separated report reads back.** A report without an instruction and without a stop has
no record. Any other has the heading and then a record of nine fields for each instruction and each
stop, in order, from which that item is read back, whatever is in the names of the sections. -/
theorem read_render_items (d : Disassembly) :
    ((∀ s ∈ d.sections, s.spans = [] ∧ s.stop = none) → Csv.read (render d).toList = some []) ∧
    ((∃ s ∈ d.sections, s.spans ≠ [] ∨ s.stop ≠ none) →
      ∃ records, Csv.read (render d).toList = some (heading.map String.toList :: records) ∧
        heading.length = 9 ∧ List.Forall₂ Shows (d.sections.flatMap Item.ofSweep) records) := by
  rw [read_records]
  constructor
  · intro none
    rw [if_pos (allRecords_eq_nil_iff.2 none)]
  · intro h
    obtain ⟨s, mem, some⟩ := h
    have records : allRecords d ≠ [] := by
      intro nil
      obtain ⟨spans, stop⟩ := allRecords_eq_nil_iff.1 nil s mem
      rcases some with some | some
      · exact some spans
      · exact some stop
    rw [if_neg records]
    exact ⟨_, rfl, rfl, forall₂_allRecords d⟩

/-- A name with a comma, quotes and line ends in it does not come between the records, and without
records there is nothing. -/
theorem read_render_items_of_awkward_name :
    Csv.read (render ⟨[]⟩).toList = some [] ∧
    ∃ d records, (d.sections.map (·.name) = ["a,\"b\"\r\n"]) ∧
      Csv.read (render d).toList = some (heading.map String.toList :: records) ∧
      records.map item? =
        [some (.instruction "a,\"b\"\r\n"
          ⟨⟨⟨3, true, false, false, .oneByte, 0x74, some .taken⟩, 0⟩, [0x3e, 0x74, 0x05]⟩),
         some (.stop "a,\"b\"\r\n" ⟨3, "Misplaced prefix byte 0x48"⟩)] := by
  let jump : Span := ⟨⟨3, true, false, false, .oneByte, 0x74, some .taken⟩, 0⟩
  let s : SectionSweep := {
    index := 1, name := "a,\"b\"\r\n", fileOffset := 0x40, size := 5,
    code := .ofList [0x3e, 0x74, 0x05, 0x48, 0x48], spans := [jump], stop := some ⟨3, .misplacedPrefix 0x48⟩ }
  refine ⟨(read_render_items ⟨[]⟩).1 nofun, ⟨[s]⟩, ?_⟩
  obtain ⟨records, read, -, shows⟩ :=
    (read_render_items ⟨[s]⟩).2 ⟨s, List.mem_singleton_self s, .inl (List.cons_ne_nil _ _)⟩
  refine ⟨records, rfl, read, ?_⟩
  obtain _ | ⟨first, _ | ⟨second, _ | _⟩⟩ := shows
  rw [List.map_cons, List.map_cons, first.item?_eq, second.item?_eq]
  rfl

end CodeSpans.Report.CsvText
