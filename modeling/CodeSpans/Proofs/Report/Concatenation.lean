import CodeSpans.Proofs.Report.CsvRecords
import CodeSpans.Report.Format

/-!
# Reports on sections in a row

The plain text report and the JSON lines on some sections and on more sections behind them are one
behind the other (`PlainText.render_append`, `JsonLines.render_append`). So are the rows of the
comma-separated report (`CsvText.rows_append`), but not the report itself: its heading stands before
the first row of all, and nowhere else (`CsvText.headed`).
-/

namespace CodeSpans

namespace Disassembly

/-- The sections of one disassembly, then those of another. -/
instance : Append Disassembly := ⟨fun a b => ⟨a.sections ++ b.sections⟩⟩

/-- Nothing was found in any section, not even a stop. -/
def Bare (d : Disassembly) : Prop := ∀ s ∈ d.sections, s.spans = [] ∧ s.stop = none

instance (d : Disassembly) : Decidable d.Bare :=
  inferInstanceAs (Decidable (∀ s ∈ d.sections, s.spans = [] ∧ s.stop = none))

@[simp] theorem sections_append (a b : Disassembly) :
    (a ++ b).sections = a.sections ++ b.sections := rfl

theorem bare_append_iff {a b : Disassembly} : (a ++ b).Bare ↔ a.Bare ∧ b.Bare :=
  List.forall_mem_append

end Disassembly

namespace Report

theorem PlainText.render_append (a b : Disassembly) :
    PlainText.render (a ++ b) = PlainText.render a ++ PlainText.render b := by
  simp only [PlainText.render, Disassembly.sections_append, List.map_append, String.join_append]

theorem JsonLines.render_append (a b : Disassembly) :
    JsonLines.render (a ++ b) = JsonLines.render a ++ JsonLines.render b := by
  simp only [JsonLines.render, Disassembly.sections_append, List.flatMap_append, List.map_append,
    String.join_append]

namespace CsvText

/-- The lines of all records, without the heading. -/
def rows (d : Disassembly) : String := String.join ((allRecords d).map Csv.line)

theorem rows_append (a b : Disassembly) : rows (a ++ b) = rows a ++ rows b := by
  simp only [rows, allRecords, Disassembly.sections_append, List.flatMap_append, List.map_append,
    String.join_append]

theorem rows_of_bare {d : Disassembly} (bare : d.Bare) : rows d = "" := by
  unfold rows
  rw [allRecords_eq_nil_iff.2 bare, List.map_nil, String.join_nil]

theorem render_eq (d : Disassembly) :
    render d = (if d.Bare then "" else Csv.line heading) ++ rows d := by
  unfold render rows
  cases records : allRecords d with
  | nil =>
    have bare : d.Bare := allRecords_eq_nil_iff.1 records
    rw [if_pos bare]
    rfl
  | cons record others =>
    have some : ¬d.Bare := fun bare => by
      rw [allRecords_eq_nil_iff.2 bare] at records
      cases records
    rw [if_neg some]
    exact String.join_cons

/-- The rows of more sections go behind a report that has any, without a second heading. -/
theorem render_append (a b : Disassembly) :
    render (a ++ b) = if a.Bare then render b else render a ++ rows b := by
  rw [render_eq, rows_append]
  by_cases bare : a.Bare
  · rw [if_pos bare, render_eq b, rows_of_bare bare, String.empty_append]
    exact congrArg (· ++ rows b) (if_congr (Disassembly.bare_append_iff.trans (and_iff_right bare))
      rfl rfl)
  · have some : ¬(a ++ b).Bare := fun both => bare (Disassembly.bare_append_iff.1 both).1
    rw [if_neg some, if_neg bare, render_eq a, if_neg bare, String.append_assoc]

/-- No record is the heading: where the heading has a word, a record has an offset. -/
theorem heading_notMem_allRecords (d : Disassembly) : heading ∉ allRecords d := by
  have literal (n : Nat) : "offset" ≠ Hex.literal n := by
    intro same
    have number := Digits.literal?_literal n
    rw [← same] at number
    cases number
  intro mem
  obtain ⟨s, -, mem⟩ := List.mem_flatMap.1 mem
  rcases List.mem_append.1 mem with mem | mem
  · obtain ⟨span, -, same⟩ := List.mem_map.1 mem
    exact literal _ (List.cons.inj (List.cons.inj same).2).1.symm
  · obtain ⟨stop, -, same⟩ := List.mem_map.1 mem
    exact literal _ (List.cons.inj (List.cons.inj same).2).1.symm

/-- A report has its heading once, or without any row not at all. -/
theorem count_heading (d : Disassembly) :
    ∃ records, Csv.read (render d).toList = some records ∧
      records.count (heading.map String.toList) = if d.Bare then 0 else 1 := by
  refine ⟨_, read_records d, ?_⟩
  by_cases bare : d.Bare
  · rw [if_pos (allRecords_eq_nil_iff.2 bare), if_pos bare, List.count_nil]
  · have others : heading.map String.toList ∉ (allRecords d).map (List.map String.toList) := by
      intro mem
      obtain ⟨record, found, same⟩ := List.mem_map.1 mem
      have injective := List.map_injective_iff.2 fun a b => String.toList_inj.1
      exact heading_notMem_allRecords d (injective same ▸ found)
    rw [if_neg fun nil => bare (allRecords_eq_nil_iff.1 nil), if_neg bare, List.map_cons,
      List.count_cons_self, List.count_eq_zero.2 others]

/-- A report is its rows, behind a heading if there are any, and has no other heading. -/
structure Headed (d : Disassembly) : Prop where
  render_eq : render d = (if d.Bare then "" else Csv.line heading) ++ rows d
  once : ∃ records, Csv.read (render d).toList = some records ∧
    records.count (heading.map String.toList) = if d.Bare then 0 else 1

theorem headed (d : Disassembly) : Headed d where
  render_eq := render_eq d
  once := count_heading d

end CsvText

end Report

/-- Reports on the sections of two disassemblies are reports on each, one behind the other, but for
the heading of the comma-separated ones. -/
structure Disassembly.Joins (a b : Disassembly) : Prop where
  text : ReportFormat.text.render (a ++ b) =
    ReportFormat.text.render a ++ ReportFormat.text.render b
  jsonLines : ReportFormat.jsonLines.render (a ++ b) =
    ReportFormat.jsonLines.render a ++ ReportFormat.jsonLines.render b
  rows : Report.CsvText.rows (a ++ b) = Report.CsvText.rows a ++ Report.CsvText.rows b
  csv : ReportFormat.csv.render (a ++ b) =
    if a.Bare then ReportFormat.csv.render b
    else ReportFormat.csv.render a ++ Report.CsvText.rows b

theorem Disassembly.joins (a b : Disassembly) : Joins a b where
  text := Report.PlainText.render_append a b
  jsonLines := Report.JsonLines.render_append a b
  rows := Report.CsvText.rows_append a b
  csv := Report.CsvText.render_append a b

end CodeSpans
