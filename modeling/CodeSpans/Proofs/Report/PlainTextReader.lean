import CodeSpans.Proofs.Report.Blocks
import CodeSpans.Proofs.Text.Digits
import CodeSpans.Proofs.Text.Lines
import CodeSpans.Report.PlainText
import Mathlib.Data.List.DropRight

/-!
# Reading the plain text report back

A reader takes the report line by line. A section begins with its heading; a line that begins with
`"  +0x"` is a row, with its bytes and its length in columns of a fixed width. Where no section's name
has a line end in it, the report shows the sections' blocks (`read_render`). For this the columns must
hold what is written to them, so no instruction may be longer than `maxLength`.
-/

namespace CodeSpans.Report.PlainText

open X86 Lines

/-! ## The reader -/

/-- The row that a line shows, from its offset on. -/
def row? (line : List Char) : Option Row := do
  let columns := (line.dropWhile (· != ':')).drop 2
  let offset ← Digits.number? 16 (line.takeWhile (· != ':'))
  let bytes ← Digits.bytes? ((columns.take 44).rdropWhile (· == ' '))
  let length ← Digits.number? 10 (((columns.drop 45).take 2).dropWhile (· == ' '))
  return ⟨offset, length, bytes⟩

/-- The entries that a line shows. -/
def shown? (line : List Char) : Option (List Entry) :=
  if line = [] then some []
  else if "Disassembly of section <".toList.isPrefixOf line then some [.begins]
  else match "  +0x".toList.isPrefixOf? line with
    | some row => do return [.row (← row? row)]
    | none => do
      let stop ← "  stopped at +0x".toList.isPrefixOf? line
      return [.stop (← Digits.number? 16 (stop.takeWhile (· != ':')))]

/-- The blocks that a text shows. -/
def read (text : List Char) : Option (List Block) :=
  (entries? shown? (lines text)).bind blocks?

/-! ## Lines of the report -/

def heading (s : SectionSweep) : String :=
  s!"Disassembly of section <{s.name}>:"

/-- What stands behind the length of an instruction. -/
def remarks (span : Span) : String :=
  let summary := prefixSummary span.toInstruction
  let flags := if summary.isEmpty then "" else s!" [{summary}]"
  let hint := match span.hint with
    | none => ""
    | some hint => s!" hint={hint.name}"
  s!"  {span.map.name}{flags}{hint}"

def rowText (s : SectionSweep) (span : Span) : String :=
  "  +0x" ++ (Hex.padded 6 span.start ++ (": " ++ (Column.left 44 (bytesText s span) ++ (" " ++
    (Column.right 2 (toString span.length.toNat) ++ remarks span)))))

def stopText (stop : Stop) : String :=
  "  stopped at +0x" ++ (Hex.digits stop.offset ++ (": " ++ stop.reason.message))

/-- The lines of a section's block. -/
def blockLines (s : SectionSweep) : List String :=
  heading s :: "" :: s.spans.map (rowText s) ++ s.stop.toList.map stopText ++ [""]

theorem instructionLine_eq (s : SectionSweep) (span : Span) :
    instructionLine s span = rowText s span ++ "\n" := by
  unfold instructionLine rowText remarks
  simp only [String.append_assoc]
  rfl

theorem stopLine_eq (stop : Stop) : stopLine stop = stopText stop ++ "\n" := by
  unfold stopLine stopText Hex.literal
  simp only [String.append_assoc]
  rfl

theorem toList_block (s : SectionSweep) :
    (block s).toList = unlines ((blockLines s).map String.toList) := by
  have front : s!"Disassembly of section <{s.name}>:\n\n" = heading s ++ "\n" ++ "\n" := by
    unfold heading
    simp only [String.append_assoc]
    rfl
  unfold block blockLines
  rw [front]
  simp only [funext (instructionLine_eq s), funext stopLine_eq]
  simp [unlines_map, String.toList_join, List.flatMap_map]

/-! ## No line has a line end -/

theorem oneLine_overrun (o : Overrun) : OneLine o.message := by
  have length := Digits.oneLine_toString o.length
  have offset := Digits.oneLine_literal o.offset
  have available := Digits.oneLine_toString o.available
  unfold Overrun.message
  simp only [oneLine_append, oneLine_toString_iff, length, offset, available, and_true]
  decide

theorem oneLine_map (map : OpcodeMap) : OneLine map.name := by
  cases map with
  | _ => decide

theorem oneLine_rejection (reason : Rejection) : OneLine reason.message := by
  cases reason with
  | unknownOpcode map opcode =>
    have name := oneLine_map map
    have byte := Digits.oneLine_byteLiteral opcode
    unfold Rejection.message
    simp only [oneLine_append, oneLine_toString_iff, name, byte, and_true]
    decide
  | misplacedPrefix b =>
    have byte := Digits.oneLine_byteLiteral b
    unfold Rejection.message
    simp only [oneLine_append, oneLine_toString_iff, byte, and_true]
    decide
  | unsupportedSelect escape select =>
    have number := Digits.oneLine_toString select.toNat
    have byte := Digits.oneLine_byteLiteral escape
    unfold Rejection.message
    simp only [oneLine_append, oneLine_toString_iff, number, byte, and_true]
    decide
  | truncated overrun =>
    have message := oneLine_overrun overrun
    unfold Rejection.message
    simp only [oneLine_append, oneLine_toString_iff, message, and_true]
    decide
  | _ => decide

theorem oneLine_prefixSummary (i : Instruction) : OneLine (prefixSummary i) := by
  refine oneLine_intercalate (by decide) fun item mem => ?_
  have known : item = "legacy" ∨ item = "rex" ∨ item = "vex" := by
    simp only [List.mem_append, List.mem_ite_nil_right, List.mem_singleton] at mem
    tauto
  rcases known with rfl | rfl | rfl
  · decide
  · decide
  · decide

theorem oneLine_remarks (span : Span) : OneLine (remarks span) := by
  have name := oneLine_map span.map
  have summary := oneLine_prefixSummary span.toInstruction
  have flags : OneLine (if (prefixSummary span.toInstruction).isEmpty then ""
      else s!" [{prefixSummary span.toInstruction}]") := by
    split
    · decide
    · simp only [oneLine_append, oneLine_toString_iff, summary, and_true]
      decide
  have hint : OneLine (match span.hint with
      | none => ""
      | some hint => s!" hint={hint.name}") := by
    cases span.hint with
    | none => decide
    | some hint =>
      cases hint with
      | _ => decide
  unfold remarks
  dsimp only
  simp only [oneLine_append, oneLine_toString_iff, name, flags, hint, and_true]
  decide

theorem oneLine_rowText (s : SectionSweep) (span : Span) : OneLine (rowText s span) := by
  have offset := Digits.oneLine_padded 6 span.start
  have blank : '\n' ≠ ' ' := by decide
  have bytes : OneLine (Column.left 44 (bytesText s span)) := by
    have digits := Digits.oneLine_spaced (s.bytesOf span)
    unfold OneLine at digits ⊢
    rw [Column.toList_left, List.rightpad, List.mem_append, List.mem_replicate]
    rintro (digit | ⟨-, filled⟩)
    · exact digits digit
    · exact blank filled
  have length : OneLine (Column.right 2 (toString span.length.toNat)) := by
    have digits := Digits.oneLine_toString span.length.toNat
    unfold OneLine at digits ⊢
    rw [Column.toList_right, List.leftpad, List.mem_append, List.mem_replicate]
    rintro (⟨-, filled⟩ | digit)
    · exact blank filled
    · exact digits digit
  have rest := oneLine_remarks span
  unfold rowText
  simp only [oneLine_append, offset, bytes, length, rest, and_true, true_and]
  decide

theorem oneLine_stopText (stop : Stop) : OneLine (stopText stop) := by
  have offset := Digits.oneLine_digits stop.offset
  have reason := oneLine_rejection stop.reason
  unfold stopText
  simp only [oneLine_append, offset, reason, and_true, true_and]
  decide

theorem oneLine_of_mem_blockLines {s : SectionSweep} (name : OneLine s.name) {line : String}
    (mem : line ∈ blockLines s) : OneLine line := by
  unfold blockLines at mem
  simp only [List.cons_append, List.mem_cons, List.mem_append, List.mem_map,
    List.not_mem_nil, or_false] at mem
  rcases mem with rfl | rfl | (⟨span, -, rfl⟩ | ⟨stop, -, rfl⟩) | rfl
  · unfold heading
    simp only [oneLine_append, oneLine_toString_iff, name, and_true]
    decide
  · decide
  · exact oneLine_rowText s span
  · exact oneLine_stopText stop
  · decide

/-! ## Columns are read back -/

theorem solid_pair {b : UInt8} {c : Char} (mem : c ∈ Hex.pair b) : c ≠ ' ' := by
  obtain ⟨n, number, -⟩ := Option.map_eq_some_iff.1 (Digits.byte?_pair b)
  rintro rfl
  exact Digits.notMem_of_number? number rfl mem

theorem rdropWhile_rightpad (width : Nat) (text : List Char) :
    (text.rightpad width ' ').rdropWhile (· == ' ') = text.rdropWhile (· == ' ') := by
  unfold List.rightpad
  generalize width - text.length = blanks
  induction blanks with
  | zero => simp
  | succ blanks ih =>
    rw [List.replicate_succ', ← List.append_assoc, List.rdropWhile_concat_pos _ _ _ rfl, ih]

theorem dropWhile_leftpad (width : Nat) {text : List Char} (solid : ' ' ∉ text) :
    (text.leftpad width ' ').dropWhile (· == ' ') = text := by
  have blanks : ∀ c ∈ List.replicate (width - text.length) ' ', c == ' ' := by
    intro c mem
    rw [List.eq_of_mem_replicate mem]
    rfl
  unfold List.leftpad
  rw [List.dropWhile_append_of_pos blanks]
  cases text with
  | nil => rfl
  | cons c text =>
    rw [List.mem_cons, not_or] at solid
    exact List.dropWhile_cons_of_neg (by simpa using Ne.symm solid.1)

theorem length_spaced (bytes : List UInt8) :
    (Hex.spaced bytes).toList.length = 3 * bytes.length - 1 := by
  have pair : ∀ b, (Hex.byte b).length = 2 := by
    intro b
    rw [← String.length_toList, Hex.toList_byte, Hex.length_pair]
  rw [String.length_toList]
  unfold Hex.spaced
  induction bytes with
  | nil => rfl
  | cons b bytes ih =>
    cases bytes with
    | nil => simp [pair]
    | cons b' bytes =>
      have blank : " ".length = 1 := rfl
      rw [List.map_cons, List.map_cons, String.intercalate_cons_cons, ← List.map_cons,
        String.length_append, String.length_append, pair, blank, ih]
      simp only [List.length_cons]
      omega

/-- The last pair of digits is no blank. -/
theorem rdropWhile_spaced (bytes : List UInt8) :
    (Hex.spaced bytes).toList.rdropWhile (· == ' ') = (Hex.spaced bytes).toList := by
  rcases List.eq_nil_or_concat bytes with rfl | ⟨front, b, rfl⟩
  · rfl
  · obtain ⟨before, same⟩ : ∃ before, Hex.spaced (front ++ [b]) = before ++ Hex.byte b := by
      cases front with
      | nil => exact ⟨"", by simp [Hex.spaced]⟩
      | cons b' front =>
        refine ⟨Hex.spaced (b' :: front) ++ " ", ?_⟩
        unfold Hex.spaced
        rw [List.map_append, String.intercalate_append_of_ne_nil (by simp) (by simp)]
        simp
    have digit : ¬ (Nat.digitChar (b.toNat % 16) == ' ') := by
      rw [beq_iff_eq]
      exact solid_pair (b := b) (by simp [Hex.pair])
    have digits : (Hex.spaced (front.concat b)).toList =
        before.toList ++ [Nat.digitChar (b.toNat / 16)] ++ [Nat.digitChar (b.toNat % 16)] := by
      rw [List.concat_eq_append, same, String.toList_append, Hex.toList_byte]
      simp [Hex.pair]
    rw [digits]
    exact List.rdropWhile_concat_neg (· == ' ') _ _ digit

/-! ## Lines are read back -/

/-- What stands in the columns of a row. -/
theorem row?_append {offset bytes length : List Char} (digits : ':' ∉ offset)
    (wide : bytes.length = 44) (wide' : length.length = 2) (rest : List Char) :
    row? (offset ++ ':' :: ' ' :: (bytes ++ ' ' :: (length ++ rest))) = (do
      let offset ← Digits.number? 16 offset
      let bytes ← Digits.bytes? (bytes.rdropWhile (· == ' '))
      let length ← Digits.number? 10 (length.dropWhile (· == ' '))
      return ⟨offset, length, bytes⟩) := by
  have before : ∀ c ∈ offset, c != ':' := by
    intro c mem
    rw [bne_iff_ne]
    rintro rfl
    exact digits mem
  have shown : (bytes ++ ' ' :: (length ++ rest)).drop 45 = length ++ rest := by
    rw [← List.singleton_append, ← List.append_assoc]
    exact List.drop_left' (by simp [wide])
  unfold row?
  rw [List.takeWhile_append_of_pos before, List.dropWhile_append_of_pos before]
  simp [List.take_left' wide, shown, List.take_left' wide']

theorem shown?_row (rest : List Char) :
    shown? ("  +0x".toList ++ rest) = (do return [.row (← row? rest)]) :=
  rfl

theorem shown?_stop (rest : List Char) :
    shown? ("  stopped at +0x".toList ++ rest) =
      (do return [.stop (← Digits.number? 16 (rest.takeWhile (· != ':')))]) :=
  rfl

theorem shown?_heading (s : SectionSweep) : shown? (heading s).toList = some [.begins] := by
  unfold heading
  simp only [String.toList_append]
  rfl

theorem shown?_rowText {s : SectionSweep} {span : Span} (short : span.length.toNat ≤ maxLength)
    (same : (s.bytesOf span).length = span.length.toNat) :
    shown? (rowText s span).toList = some [.row (.ofSpan s span)] := by
  have limit : maxLength = 15 := rfl
  have parts : (rowText s span).toList = "  +0x".toList ++
      ((Hex.padded 6 span.start).toList ++ ':' :: ' ' ::
        ((Hex.spaced (s.bytesOf span)).toList.rightpad 44 ' ' ++ ' ' ::
          ((toString span.length.toNat).toList.leftpad 2 ' ' ++ (remarks span).toList))) := by
    unfold rowText
    simp only [String.toList_append, Column.toList_left, Column.toList_right]
    rfl
  have offset := Digits.number?_padded 6 span.start
  have length := Digits.number?_toString span.length.toNat
  have wide : ((Hex.spaced (s.bytesOf span)).toList.rightpad 44 ' ').length = 44 := by
    rw [List.length_rightpad, length_spaced, same]
    omega
  have wide' : ((toString span.length.toNat).toList.leftpad 2 ' ').length = 2 := by
    have few : (Nat.toDigits 10 span.length.toNat).length ≤ 2 :=
      (Nat.length_toDigits_le_iff (by decide) (by decide)).2 (by omega)
    rw [List.length_leftpad, Digits.toList_toString]
    omega
  have columns := row?_append (Digits.notMem_of_number? offset rfl) wide wide'
    (remarks span).toList
  rw [offset, rdropWhile_rightpad, rdropWhile_spaced, Digits.bytes?_spaced,
    dropWhile_leftpad _ (Digits.notMem_of_number? length rfl), length] at columns
  rw [parts, shown?_row, columns]
  rfl

theorem shown?_stopText (stop : Stop) :
    shown? (stopText stop).toList = some [.stop stop.offset] := by
  have number := Digits.number?_digits stop.offset
  have before : ∀ c ∈ (Hex.digits stop.offset).toList, c != ':' := by
    intro c mem
    rw [bne_iff_ne]
    rintro rfl
    exact Digits.notMem_of_number? number rfl mem
  have parts : (stopText stop).toList = "  stopped at +0x".toList ++
      ((Hex.digits stop.offset).toList ++ ':' :: ' ' :: stop.reason.message.toList) := by
    unfold stopText
    simp only [String.toList_append]
    rfl
  rw [parts, shown?_stop, List.takeWhile_append_of_pos before]
  simp [number]

/-- A section's lines show its entries where each instruction fits its columns. -/
theorem entries?_blockLines {s : SectionSweep}
    (each : ∀ span ∈ s.spans, span.length.toNat ≤ maxLength ∧
      (s.bytesOf span).length = span.length.toNat) :
    entries? shown? ((blockLines s).map String.toList) = some (Entry.ofSweep s) := by
  have front : entries? shown? [(heading s).toList, []] = some [.begins] := by
    rw [entries?, shown?_heading]
    rfl
  have all := entries?_append (entries?_ofSweep front
    (fun span mem => shown?_rowText (each span mem).1 (each span mem).2) shown?_stopText)
    (show entries? shown? [[]] = some [] from rfl)
  rw [List.append_nil] at all
  unfold blockLines
  simpa [Function.comp_def] using all

/-- **The plain text report shows the blocks of its sections.** -/
theorem read_render {d : Disassembly} (names : ∀ s ∈ d.sections, OneLine s.name)
    (each : ∀ s ∈ d.sections, ∀ span ∈ s.spans, span.length.toNat ≤ maxLength ∧
      (s.bytesOf span).length = span.length.toNat) :
    read (render d).toList = some (d.sections.map Block.ofSweep) := by
  have text : (render d).toList =
      unlines (d.sections.flatMap fun s => (blockLines s).map String.toList) := by
    unfold render
    simp [String.toList_join, List.flatMap_map, unlines_flatMap, toList_block]
  have single : ∀ line ∈ d.sections.flatMap fun s => (blockLines s).map String.toList,
      '\n' ∉ line := by
    intro line mem
    obtain ⟨s, found, inBlock⟩ := List.mem_flatMap.1 mem
    obtain ⟨text, written, rfl⟩ := List.mem_map.1 inBlock
    exact oneLine_of_mem_blockLines (names s found) written
  unfold read
  rw [text, lines_unlines single]
  exact blocks?_of_items fun s mem => entries?_blockLines (each s mem)

end CodeSpans.Report.PlainText
