import CodeSpans.Text.Csv

/-!
# Reading comma-separated text back

A reader for records of fields as RFC 4180 describes them, but for line ends, which are single
characters here. It goes through the text character by character (`Csv.step`). Between quotes
everything is data, and a quote is written twice; outside of them a field has no quote and no
carriage return. Records are read back as they were written, whatever their fields hold
(`Csv.read_lines`).
-/

namespace CodeSpans.Csv

/-- Where in a field a reader stands. -/
inductive Place where
  /-- No character of the field is read. -/
  | front
  /-- In a field without quotes. -/
  | plain
  /-- Between quotes. -/
  | quoted
  /-- Behind a quote that ends the field, unless there is one more. -/
  | closed
deriving DecidableEq, Repr

/-- What has been read: whole records, whole fields of the record that goes on, and characters of
the field that goes on. -/
structure Progress where
  records : List (List (List Char))
  fields : List (List Char)
  field : List Char
  place : Place
deriving DecidableEq, Repr

namespace Progress

/-- Before the first character. -/
def start : Progress := ⟨[], [], [], .front⟩

/-- With one more character of the field. -/
def push (p : Progress) (c : Char) (place : Place) : Progress :=
  { p with field := p.field ++ [c], place }

/-- With the field at its end. -/
def endField (p : Progress) : Progress :=
  ⟨p.records, p.fields ++ [p.field], [], .front⟩

/-- With the field and its record at their end. -/
def endRecord (p : Progress) : Progress :=
  ⟨p.records ++ [p.fields ++ [p.field]], [], [], .front⟩

end Progress

/-- A character outside of quotes, behind those of a field. -/
def stepOutside (p : Progress) (c : Char) : Option Progress :=
  if c = ',' then some p.endField
  else if c = '\n' then some p.endRecord
  else none

def step (p : Progress) (c : Char) : Option Progress :=
  match p.place with
  | .front =>
    if c = '"' then some { p with place := .quoted }
    else if isSpecial c then stepOutside p c
    else some (p.push c .plain)
  | .plain => if isSpecial c then stepOutside p c else some (p.push c .plain)
  | .quoted => if c = '"' then some { p with place := .closed } else some (p.push c .quoted)
  | .closed => if c = '"' then some (p.push c .quoted) else stepOutside p c

/-- The records of a text, each of which must end with a line end. -/
def read (text : List Char) : Option (List (List (List Char))) := do
  let p ← text.foldlM step .start
  if p.fields = [] ∧ p.place = .front then return p.records else none

/-! ## Fields -/

section

variable {records : List (List (List Char))} {fields : List (List Char)} {field : List Char}
  {place : Place}

/-- Where no quotes are open, a comma ends the field. -/
theorem step_comma (outside : place ≠ .quoted) :
    step ⟨records, fields, field, place⟩ ',' =
      some ⟨records, fields ++ [field], [], .front⟩ := by
  cases place with
  | quoted => exact absurd rfl outside
  | _ => rfl

/-- Where no quotes are open, a line end ends the record. -/
theorem step_lineEnd (outside : place ≠ .quoted) :
    step ⟨records, fields, field, place⟩ '\n' =
      some ⟨records ++ [fields ++ [field]], [], [], .front⟩ := by
  cases place with
  | quoted => exact absurd rfl outside
  | _ => rfl

theorem foldlM_plain {text : List Char} (plain : text.any isSpecial = false) :
    text.foldlM step ⟨records, fields, field, .plain⟩ =
      some ⟨records, fields, field ++ text, .plain⟩ := by
  induction text generalizing field with
  | nil => simp
  | cons c text ih =>
    rw [List.any_cons, Bool.or_eq_false_iff] at plain
    have pushed : step ⟨records, fields, field, .plain⟩ c =
        some ⟨records, fields, field ++ [c], .plain⟩ := by
      simp [step, plain.1, Progress.push]
    rw [List.foldlM_cons, pushed, Option.bind_eq_bind, Option.bind_some, ih plain.2]
    simp

theorem foldlM_escape (text : List Char) :
    (text.flatMap escape).foldlM step ⟨records, fields, field, .quoted⟩ =
      some ⟨records, fields, field ++ text, .quoted⟩ := by
  induction text generalizing field with
  | nil => simp
  | cons c text ih =>
    have pushed : (escape c).foldlM step ⟨records, fields, field, .quoted⟩ =
        some ⟨records, fields, field ++ [c], .quoted⟩ := by
      unfold escape
      split
      · next quote =>
        subst quote
        rfl
      · next other => simp [step, other, Progress.push]
    rw [List.flatMap_cons, List.foldlM_append, pushed, Option.bind_eq_bind, Option.bind_some, ih]
    simp

variable (records fields) in
/-- A field is read as it was written, and no quotes are open behind it. -/
theorem exists_foldlM_field (s : String) :
    ∃ place, place ≠ .quoted ∧
      (Csv.field s).toList.foldlM step ⟨records, fields, [], .front⟩ =
        some ⟨records, fields, s.toList, place⟩ := by
  unfold Csv.field
  split
  · refine ⟨.closed, nofun, ?_⟩
    rw [String.toList_ofList, List.cons_append, List.foldlM_cons]
    change ((s.toList.flatMap escape) ++ ['"']).foldlM step ⟨records, fields, [], .quoted⟩ = _
    rw [List.foldlM_append, foldlM_escape]
    rfl
  · next special =>
    have plain : s.toList.any isSpecial = false := by simpa using special
    cases text : s.toList with
    | nil => exact ⟨.front, nofun, rfl⟩
    | cons c rest =>
      rw [text, List.any_cons, Bool.or_eq_false_iff] at plain
      have ordinary : c ≠ '"' := by
        intro same
        rw [same] at plain
        cases plain.1
      have pushed : step ⟨records, fields, [], .front⟩ c =
          some ⟨records, fields, [c], .plain⟩ := by
        simp [step, plain.1, ordinary, Progress.push]
      refine ⟨.plain, nofun, ?_⟩
      rw [List.foldlM_cons, pushed, Option.bind_eq_bind, Option.bind_some, foldlM_plain plain.2]
      rfl

end

/-! ## Records -/

theorem toList_line (fields : List String) :
    (line fields).toList = [','].intercalate (fields.map fun s => (field s).toList) ++ ['\n'] := by
  unfold line
  rw [String.toList_append, String.toList_intercalate, List.map_map]
  rfl

theorem foldlM_line (records : List (List (List Char))) {fields : List String}
    (some : fields ≠ []) (before : List (List Char)) :
    (line fields).toList.foldlM step ⟨records, before, [], .front⟩ =
      .some ⟨records ++ [before ++ fields.map String.toList], [], [], .front⟩ := by
  rw [toList_line]
  induction fields generalizing before with
  | nil => exact absurd rfl some
  | cons s fields ih =>
    obtain ⟨place, outside, read⟩ :=
      exists_foldlM_field records before s
    cases fields with
    | nil =>
      rw [List.map_cons, List.map_nil, List.intercalate_singleton, List.foldlM_append, read,
        Option.bind_eq_bind, Option.bind_some, List.foldlM_cons, step_lineEnd outside]
      rfl
    | cons s' fields =>
      have rest := ih (List.cons_ne_nil _ _) (before ++ [s.toList])
      rw [List.map_cons, List.intercalate_cons_of_ne_nil (by simp), List.append_assoc,
        List.append_assoc, List.foldlM_append, read, Option.bind_eq_bind, Option.bind_some,
        List.singleton_append, List.foldlM_cons, step_comma outside, Option.bind_eq_bind,
        Option.bind_some, rest]
      simp

theorem foldlM_lines {records : List (List String)} (some : ∀ fields ∈ records, fields ≠ [])
    (before : List (List (List Char))) :
    (records.flatMap fun fields => (line fields).toList).foldlM step ⟨before, [], [], .front⟩ =
      .some ⟨before ++ records.map (List.map String.toList), [], [], .front⟩ := by
  induction records generalizing before with
  | nil => simp
  | cons fields records ih =>
    have rest := ih fun fields' mem => some fields' (List.mem_cons_of_mem _ mem)
    rw [List.flatMap_cons, List.foldlM_append, foldlM_line _ (some fields List.mem_cons_self),
      Option.bind_eq_bind, Option.bind_some, rest]
    simp

/-- Records are read as they were written. -/
theorem read_lines {records : List (List String)} (some : ∀ fields ∈ records, fields ≠ []) :
    read (String.join (records.map line)).toList = .some (records.map (List.map String.toList)) := by
  unfold read
  rw [String.toList_join, List.flatMap_map, Progress.start, foldlM_lines some]
  simp

end CodeSpans.Csv
