/-!
# Reading lines back

A text is the sequence of its lines, each with a line end behind it. Lines that hold no line end
themselves are read back as they were written (`lines_unlines`).
-/

namespace CodeSpans.Lines

/-- The lines of a text without their line ends. What stands behind the last line end is no line. -/
def lines (text : List Char) : List (List Char) :=
  (text.splitOn '\n').dropLast

/-- Lines with their line ends. -/
def unlines (written : List (List Char)) : List Char :=
  written.flatMap (· ++ ['\n'])

@[simp] theorem unlines_nil : unlines [] = [] := rfl

@[simp] theorem unlines_cons (line : List Char) (written : List (List Char)) :
    unlines (line :: written) = line ++ '\n' :: unlines written := by
  simp [unlines]

@[simp] theorem unlines_append (written written' : List (List Char)) :
    unlines (written ++ written') = unlines written ++ unlines written' :=
  List.flatMap_append

theorem unlines_flatMap {α : Type} (f : α → List (List Char)) (items : List α) :
    unlines (items.flatMap f) = items.flatMap fun item => unlines (f item) :=
  List.flatMap_assoc

theorem unlines_map {α : Type} (f : α → List Char) (items : List α) :
    unlines (items.map f) = items.flatMap fun item => f item ++ ['\n'] :=
  List.flatMap_map f _ items

theorem splitOn_unlines {written : List (List Char)} (single : ∀ line ∈ written, '\n' ∉ line) :
    (unlines written).splitOn '\n' = written ++ [[]] := by
  induction written with
  | nil => rfl
  | cons line written ih =>
    have here : ∀ c ∈ line, (c == '\n') = false := by
      intro c mem
      rw [beq_eq_false_iff_ne]
      exact fun same => single line List.mem_cons_self (same ▸ mem)
    have rest := ih fun line' mem => single line' (List.mem_cons_of_mem _ mem)
    rw [unlines_cons, List.splitOn, List.splitOnP_append_cons_of_forall_mem here _ rfl]
    rw [List.splitOn] at rest
    rw [rest, List.cons_append]

/-- Lines are read as they were written. -/
theorem lines_unlines {written : List (List Char)} (single : ∀ line ∈ written, '\n' ∉ line) :
    lines (unlines written) = written := by
  unfold lines
  rw [splitOn_unlines single, List.dropLast_concat]

/-! ## Texts without a line end -/

def OneLine (s : String) : Prop := '\n' ∉ s.toList

instance (s : String) : Decidable (OneLine s) :=
  inferInstanceAs (Decidable ('\n' ∉ s.toList))

@[simp] theorem oneLine_append {s s' : String} : OneLine (s ++ s') ↔ OneLine s ∧ OneLine s' := by
  simp [OneLine]

/-- What is put into a text as it is. -/
@[simp] theorem oneLine_toString_iff {s : String} : OneLine (toString s) ↔ OneLine s :=
  Iff.rfl

@[simp] theorem oneLine_ofList {chars : List Char} :
    OneLine (.ofList chars) ↔ '\n' ∉ chars := by
  simp [OneLine]

theorem oneLine_intercalate {separator : String} (between : OneLine separator)
    {items : List String} (each : ∀ item ∈ items, OneLine item) :
    OneLine (separator.intercalate items) := by
  induction items with
  | nil => simp [OneLine]
  | cons item items ih =>
    have here := each item List.mem_cons_self
    have rest := ih fun item' mem => each item' (List.mem_cons_of_mem _ mem)
    cases items with
    | nil => simpa using here
    | cons item' items =>
      rw [String.intercalate_cons_cons, oneLine_append, oneLine_append]
      exact ⟨⟨here, between⟩, rest⟩

end CodeSpans.Lines
