import CodeSpans.Proofs.Report.Blocks
import CodeSpans.Proofs.Text.CsvReader
import CodeSpans.Proofs.Text.Digits
import CodeSpans.Report.CsvText

/-!
# Reading the comma-separated report back

A reader takes offset, length and bytes from the records behind the heading. A record without a
length is a stop. That a section begins is seen from the offset zero, so a section without bytes is
not seen at all: the report shows the blocks of the other sections (`read_render`).
-/

namespace CodeSpans.Report.CsvText

open X86

/-! ## The reader -/

/-- An entry at the first byte begins a section. -/
def beginning (offset : Nat) : List Entry :=
  if offset = 0 then [.begins] else []

/-- The entries that a record shows. -/
def shown? : List (List Char) → Option (List Entry)
  | [_, place, length, bytes, _, _, _, _, _] => do
    let offset ← Digits.literal? place
    if length = [] then return beginning offset ++ [.stop offset]
    else
      let row := ⟨offset, ← Digits.number? 10 length, ← Digits.bytes? bytes⟩
      return beginning offset ++ [.row row]
  | _ => none

/-- The blocks that a text shows. -/
def read (text : List Char) : Option (List Block) := do
  match ← Csv.read text with
  | [] => return []
  | _ :: records => (entries? shown? records).bind blocks?

/-! ## Records are read back -/

theorem shown?_ofInstruction (s : SectionSweep) (span : Span) :
    shown? ((ofInstruction s span).map String.toList) =
      some (beginning span.start ++ [.row (.ofSpan s span)]) := by
  have length := Digits.number?_toString span.length.toNat
  have bytes := Digits.bytes?_spaced (s.bytesOf span)
  have some := Digits.toString_ne_nil span.length.toNat
  unfold ofInstruction bytesText
  simp only [List.map_cons, List.map_nil, shown?, Digits.literal?_literal, Option.bind_eq_bind,
    Option.bind_some, if_neg some, length, bytes]
  rfl

theorem shown?_ofStop (s : SectionSweep) (stop : Stop) :
    shown? ((ofStop s stop).map String.toList) =
      some (beginning stop.offset ++ [.stop stop.offset]) := by
  unfold ofStop
  simp only [List.map_cons, List.map_nil, shown?, Digits.literal?_literal, Option.bind_eq_bind,
    Option.bind_some]
  rfl

theorem beginning_of_pos {offset : Nat} (positive : 0 < offset) : beginning offset = [] :=
  if_neg (Nat.ne_of_gt positive)

/-- What stands behind the first byte begins no section. -/
theorem flatMap_behind (s : SectionSweep) {spans : List Span}
    (behind : ∀ span ∈ spans, 0 < span.start) :
    (spans.flatMap fun span => beginning span.start ++ [Entry.row (.ofSpan s span)]) =
      spans.map fun span => .row (.ofSpan s span) := by
  induction spans with
  | nil => rfl
  | cons span spans ih =>
    have rest := ih fun span' mem => behind span' (List.mem_cons_of_mem _ mem)
    rw [List.flatMap_cons, beginning_of_pos (behind span List.mem_cons_self), rest]
    rfl

/-- Of a walk from the first byte on, only the first entry begins a section. -/
theorem flatMap_beginning {s : SectionSweep} (w : Walk decode s.code 0 s.spans s.stop)
    (some : s.code.size ≠ 0) :
    (s.spans.flatMap fun span => beginning span.start ++ [.row (.ofSpan s span)]) ++
      (s.stop.toList.flatMap fun stop => beginning stop.offset ++ [.stop stop.offset]) =
        Entry.ofSweep s := by
  have increase := w.starts_increase
  have place := w.extent_eq_getD
  unfold Entry.ofSweep
  cases found : s.spans with
  | nil =>
    rw [found] at place
    cases stopped : s.stop with
    | none =>
      rw [stopped] at place
      exact absurd place.symm some
    | some stop =>
      rw [stopped] at place
      have first : stop.offset = 0 := place.symm
      simp [beginning, first]
  | cons span spans =>
    rw [found] at w increase place
    have first : span.start = 0 := w.start_of_head? decode_exact rfl
    have behind : ∀ span' ∈ spans, 0 < span'.start := fun span' mem =>
      Nat.lt_of_le_of_lt (Nat.zero_le _) ((List.pairwise_cons.1 increase).1 span' mem)
    have stop : (s.stop.toList.flatMap fun stop => beginning stop.offset ++
        [Entry.stop stop.offset]) = s.stop.toList.map fun stop => .stop stop.offset := by
      cases stopped : s.stop with
      | none => rfl
      | some stop =>
        have progress := (decode_exact w.step_inv.2.1).2.1
        rw [stopped, extent_cons] at place
        have offset : stop.offset = span.length.toNat + extent spans := place.symm
        simp [beginning_of_pos (show 0 < stop.offset by omega)]
    rw [List.flatMap_cons, flatMap_behind s behind, stop, first]
    simp [beginning]

theorem entries?_records {s : SectionSweep} (w : Walk decode s.code 0 s.spans s.stop)
    (some : s.code.size ≠ 0) :
    entries? shown? ((records s).map (List.map String.toList)) = .some (Entry.ofSweep s) := by
  have rows := entries?_map fun span (_ : span ∈ s.spans) => shown?_ofInstruction s span
  have stops := entries?_map fun stop (_ : stop ∈ s.stop.toList) => shown?_ofStop s stop
  have all := entries?_append rows stops
  rw [flatMap_beginning w some] at all
  unfold records
  simpa [Function.comp_def] using all

theorem records_eq_nil {s : SectionSweep} (w : Walk decode s.code 0 s.spans s.stop)
    (none : s.code.size = 0) : records s = [] := by
  obtain ⟨noSpans, noStop⟩ := w.unique (.done (Nat.le_of_eq none))
  unfold records
  rw [noSpans, noStop]
  rfl

theorem ne_nil_of_mem_records {s : SectionSweep} {fields : List String}
    (mem : fields ∈ records s) : fields ≠ [] := by
  unfold records at mem
  rcases List.mem_append.1 mem with mem | mem
  · obtain ⟨span, -, rfl⟩ := List.mem_map.1 mem
    exact List.cons_ne_nil _ _
  · obtain ⟨stop, -, rfl⟩ := List.mem_map.1 mem
    exact List.cons_ne_nil _ _

/-- The report is read as its records behind the heading, or as none. -/
theorem read_records (d : Disassembly) :
    Csv.read (render d).toList = some (if allRecords d = [] then []
      else (heading :: allRecords d).map (List.map String.toList)) := by
  have fields : ∀ record ∈ heading :: allRecords d, record ≠ [] := by
    intro record mem
    rcases List.mem_cons.1 mem with rfl | mem
    · exact List.cons_ne_nil _ _
    · obtain ⟨s, -, found⟩ := List.mem_flatMap.1 mem
      exact ne_nil_of_mem_records found
  have written := Csv.read_lines fields
  unfold render
  cases records : allRecords d with
  | nil => rfl
  | cons record others =>
    rw [records] at written
    rw [if_neg (List.cons_ne_nil _ _)]
    exact written

/-- Only the sections that have bytes have records. -/
theorem flatMap_records {sections : List SectionSweep}
    (walks : ∀ s ∈ sections, Walk decode s.code 0 s.spans s.stop) :
    sections.flatMap records = (sections.filter fun s => s.code.size ≠ 0).flatMap records := by
  induction sections with
  | nil => rfl
  | cons s sections ih =>
    have rest := ih fun s' mem => walks s' (List.mem_cons_of_mem _ mem)
    by_cases none : s.code.size = 0
    · rw [List.flatMap_cons, records_eq_nil (walks s List.mem_cons_self) none, rest,
        List.filter_cons_of_neg (by simp [none]), List.nil_append]
    · rw [List.flatMap_cons, rest, List.filter_cons_of_pos (by simp [none]), List.flatMap_cons]

/-- **The comma-separated report shows the blocks of the sections that have bytes.** -/
theorem read_render {d : Disassembly}
    (walks : ∀ s ∈ d.sections, Walk decode s.code 0 s.spans s.stop) :
    read (render d).toList =
      some ((d.sections.filter fun s => s.code.size ≠ 0).map Block.ofSweep) := by
  have blocks : (entries? shown? ((allRecords d).map (List.map String.toList))).bind blocks? =
      some ((d.sections.filter fun s => s.code.size ≠ 0).map Block.ofSweep) := by
    unfold allRecords
    rw [flatMap_records walks, List.map_flatMap]
    refine blocks?_of_items fun s mem => ?_
    obtain ⟨found, some⟩ := List.mem_filter.1 mem
    exact entries?_records (walks s found) (of_decide_eq_true some)
  unfold read
  rw [read_records]
  cases records : allRecords d with
  | nil =>
    rw [records] at blocks
    exact blocks
  | cons record others =>
    rw [records] at blocks
    exact blocks

end CodeSpans.Report.CsvText
