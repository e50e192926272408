import CodeSpans.Proofs.Text.Digits
import CodeSpans.Text.Json
import Mathlib.Algebra.Order.BigOperators.Group.List
import Mathlib.Algebra.Order.Ring.Nat

/-!
# Reading JSON back

A reader for JSON values (`read`), which skips blanks between tokens and takes a value, an item
or a member at a time. `fuel` bounds how deep values are nested and how many items they have; the
length of a text is always enough. A value is read back as it was written, in any style that has only
blanks between its tokens (`read_render`), so its text is no other value's.
-/

namespace CodeSpans.JsonReader

def isBlank (c : Char) : Bool :=
  c == ' ' || c == '\n' || c == '\r' || c == '\t'

def skipBlanks (text : List Char) : List Char :=
  text.dropWhile isBlank

/-- A reader answers with what stands at the front of a text, and with the rest of the text. -/
abbrev ReadsFront (α : Type) := List Char → Option (α × List Char)

/-! ## Strings -/

/-- What a character behind a backslash stands for. -/
def unescape? (c : Char) : Option Char :=
  if c = '"' ∨ c = '\\' ∨ c = '/' then some c
  else if c = 'b' then some '\x08'
  else if c = 'f' then some '\x0c'
  else if c = 'n' then some '\n'
  else if c = 'r' then some '\r'
  else if c = 't' then some '\t'
  else none

/-- The character of a number, which must not be half of a pair. -/
def ofCode? (code : Nat) : Option Char :=
  if code.isValidChar then some (Char.ofNat code) else none

/-- The characters of a string behind its first quote. Control characters must be escaped. -/
def readText : ReadsFront (List Char)
  | [] => none
  | '"' :: rest => some ([], rest)
  | '\\' :: 'u' :: a :: b :: c :: d :: rest => do
    let code ← Digits.number? 16 [a, b, c, d]
    let (text, rest) ← readText rest
    return ((← ofCode? code) :: text, rest)
  | '\\' :: c :: rest => do
    let (text, rest) ← readText rest
    return ((← unescape? c) :: text, rest)
  | c :: rest => do
    let (text, rest) ← readText rest
    if c.toNat < 0x20 then none else return (c :: text, rest)

/-! ## Values -/

/-- Items with commas between them, up to a closing bracket. -/
def readItems {α : Type} (item : ReadsFront α) (closing : Char) : (fuel : Nat) → ReadsFront (List α)
  | 0, _ => none
  | fuel + 1, text => do
    let (first, rest) ← item text
    match skipBlanks rest with
    | [] => none
    | c :: rest =>
      if c = ',' then
        let (others, rest) ← readItems item closing fuel rest
        return (first :: others, rest)
      else if c = closing then return ([first], rest)
      else none

/-- Items behind an opening bracket, of which there may be none. -/
def readEnclosed {α : Type} (item : ReadsFront α) (closing : Char) (fuel : Nat) :
    ReadsFront (List α) := fun text =>
  match skipBlanks text with
  | [] => none
  | c :: rest => if c = closing then some ([], rest) else readItems item closing fuel (c :: rest)

def readMember (value : ReadsFront Json) : ReadsFront (String × Json) := fun text =>
  match skipBlanks text with
  | '"' :: rest => do
    let (key, rest) ← readText rest
    match skipBlanks rest with
    | ':' :: rest => do
      let (v, rest) ← value rest
      return ((String.ofList key, v), rest)
    | _ => none
  | _ => none

def readNumber : ReadsFront Json := fun text => do
  let n ← Digits.number? 10 (text.takeWhile Char.isDigit)
  return (.number n, text.dropWhile Char.isDigit)

def readValue : (fuel : Nat) → ReadsFront Json
  | 0, _ => none
  | fuel + 1, text =>
    match skipBlanks text with
    | [] => none
    | c :: rest =>
      if c.isDigit then readNumber (c :: rest)
      else if c = '"' then do
        let (value, rest) ← readText rest
        return (.text (String.ofList value), rest)
      else if c = '[' then do
        let (items, rest) ← readEnclosed (readValue fuel) ']' fuel rest
        return (.array items, rest)
      else if c = '\x7b' then do
        let (members, rest) ← readEnclosed (readMember (readValue fuel)) '\x7d' fuel rest
        return (.object members, rest)
      else
        match c :: rest with
        | 't' :: 'r' :: 'u' :: 'e' :: rest => some (.flag true, rest)
        | 'f' :: 'a' :: 'l' :: 's' :: 'e' :: rest => some (.flag false, rest)
        | _ => none

/-- The value that a whole text is. -/
def read (text : List Char) : Option Json := do
  let (value, rest) ← readValue text.length text
  if skipBlanks rest = [] then return value else none

/-! ## Strings are read back -/

/-- An escape of two characters stands for one. -/
theorem readText_pair {c e : Char} (known : unescape? e = some c) (rest : List Char) :
    readText ('\\' :: e :: rest) = (readText rest).map fun read => (c :: read.1, read.2) := by
  have short : e ≠ 'u' := by
    intro same
    rw [same] at known
    cases known
  rw [readText]
  · rw [known]
    cases readText rest <;> rfl
  · intro a b c d rest same
    exact fun _ => short same

/-- A character that needs no escape stands for itself. -/
theorem readText_plain {c : Char} (noQuote : c ≠ '"') (noEscape : c ≠ '\\')
    (noControl : ¬ c.toNat < 0x20) (rest : List Char) :
    readText (c :: rest) = (readText rest).map fun read => (c :: read.1, read.2) := by
  rw [readText]
  · cases readText rest with
    | none => rfl
    | some read => simp [noControl]
  · exact noQuote
  · exact fun _ _ _ _ _ same _ => noEscape same
  · exact fun _ _ same _ => noEscape same

/-- A control character is read back from its number. -/
theorem readText_code {c : Char} (control : c.toNat < 0x20) (rest : List Char) :
    readText ('\\' :: 'u' :: '0' :: '0' :: Nat.digitChar (c.toNat / 16) ::
      Nat.digitChar (c.toNat % 16) :: rest) =
        (readText rest).map fun read => (c :: read.1, read.2) := by
  have high : c.toNat / 16 < 16 := by omega
  have low : c.toNat % 16 < 16 := by omega
  have code : Digits.number? 16
      ['0', '0', Nat.digitChar (c.toNat / 16), Nat.digitChar (c.toNat % 16)] = some c.toNat := by
    have zero : Nat.digitChar 0 = '0' := rfl
    rw [Digits.number?_eq_foldlM (List.cons_ne_nil _ _), ← zero]
    simp [Digits.push?_digitChar, high, low, Nat.div_add_mod]
  have valid : ofCode? c.toNat = some c := by
    unfold ofCode?
    rw [if_pos (show c.toNat.isValidChar from c.valid), Char.ofNat_toNat]
  rw [readText, code, Option.bind_eq_bind, Option.bind_some, valid]
  cases readText rest with
  | none => rfl
  | some read => rfl

theorem readText_escape (c : Char) (rest : List Char) :
    readText (Json.escape c ++ rest) = (readText rest).map fun read => (c :: read.1, read.2) := by
  unfold Json.escape
  split
  · next quote =>
    subst quote
    exact readText_pair rfl rest
  split
  · next backslash =>
    subst backslash
    exact readText_pair rfl rest
  split
  · next backspace =>
    subst backspace
    exact readText_pair rfl rest
  split
  · next feed =>
    subst feed
    exact readText_pair rfl rest
  split
  · next lineEnd =>
    subst lineEnd
    exact readText_pair rfl rest
  split
  · next carriage =>
    subst carriage
    exact readText_pair rfl rest
  split
  · next tab =>
    subst tab
    exact readText_pair rfl rest
  split
  · next control => exact readText_code control rest
  · next noQuote noEscape _ _ _ _ _ noControl => exact readText_plain noQuote noEscape noControl rest

/-- A string is read back behind its first quote. -/
theorem readText_flatMap (chars rest : List Char) :
    readText (chars.flatMap Json.escape ++ '"' :: rest) = some (chars, rest) := by
  induction chars with
  | nil => rfl
  | cons c chars ih =>
    rw [List.flatMap_cons, List.append_assoc, readText_escape, ih]
    rfl

/-! ## Blanks -/

/-- There are only blanks between the tokens. -/
structure Loose (style : Json.Style) : Prop where
  gap : ∀ depth, (style.gap depth).toList.all isBlank
  colon : ∃ blanks, style.colon.toList = ':' :: blanks ∧ blanks.all isBlank

theorem loose_compact : Loose Json.compact where
  gap _ := rfl
  colon := ⟨[], rfl, rfl⟩

theorem loose_pretty : Loose Json.pretty where
  gap depth := by
    simp [Json.pretty, isBlank]
  colon := ⟨[' '], rfl, rfl⟩

theorem skipBlanks_append {blanks : List Char} (h : blanks.all isBlank) (rest : List Char) :
    skipBlanks (blanks ++ rest) = skipBlanks rest :=
  List.dropWhile_append_of_pos (List.all_eq_true.1 h)

theorem skipBlanks_cons {c : Char} (h : isBlank c = false) (rest : List Char) :
    skipBlanks (c :: rest) = c :: rest :=
  List.dropWhile_cons_of_neg (by simp [h])

/-! ## What is read of a text, whatever follows -/

/-- What follows does not go on with a number. -/
def Apart (rest : List Char) : Prop :=
  ∀ c ∈ rest.head?, c.isDigit = false

theorem apart_cons {c : Char} (h : c.isDigit = false) (rest : List Char) : Apart (c :: rest) := by
  intro c' head
  cases head
  exact h

/-- What is written is read, and nothing behind it. -/
def Reads {α : Type} (reader : ReadsFront α) (written : List Char) (a : α) : Prop :=
  ∀ rest, Apart rest → reader (written ++ rest) = some (a, rest)

theorem apart_of_blank {c : Char} (h : isBlank c) (rest : List Char) : Apart (c :: rest) := by
  refine apart_cons ?_ rest
  unfold isBlank at h
  simp only [Bool.or_eq_true, beq_iff_eq] at h
  obtain ((rfl | rfl) | rfl) | rfl := h <;> rfl

theorem apart_append {gap : List Char} (blank : gap.all isBlank) {rest : List Char}
    (apart : Apart rest) : Apart (gap ++ rest) := by
  cases gap with
  | nil => exact apart
  | cons c gap =>
    rw [List.all_cons, Bool.and_eq_true] at blank
    exact apart_of_blank blank.1 _

/-! ## Items -/

/-- A closing bracket is neither a comma, nor skipped, nor part of a number. -/
structure Closes (closing : Char) : Prop where
  noComma : closing ≠ ','
  noBlank : isBlank closing = false
  noDigit : closing.isDigit = false

theorem closes_array : Closes ']' := ⟨by decide, by decide, by decide⟩

theorem closes_object : Closes '\x7d' := ⟨by decide, by decide, by decide⟩

/-- Something starts with a character that is not skipped and closes nothing. -/
def Starts (closing : Char) (written : List Char) : Prop :=
  ∃ c, written.head? = some c ∧ isBlank c = false ∧ c ≠ closing

section

variable {α : Type} {item : ReadsFront α} {closing : Char} (closes : Closes closing)
  {write : α → List Char} {items : List α}

include closes

theorem readItems_intercalate {gap : List Char} (blank : gap.all isBlank)
    (each : ∀ x ∈ items, Reads item (write x) x) (some : items ≠ []) {fuel : Nat}
    (enough : items.length ≤ fuel) (rest : List Char) :
    readItems item closing fuel ([','].intercalate (items.map write) ++ (gap ++ closing :: rest)) =
      .some (items, rest) := by
  induction items generalizing fuel with
  | nil => exact absurd rfl some
  | cons x items ih =>
    have here := each x List.mem_cons_self
    have comma : isBlank ',' = false := rfl
    cases fuel with
    | zero => cases enough
    | succ fuel =>
      rw [readItems]
      cases items with
      | nil =>
        have apart : Apart (gap ++ closing :: rest) :=
          apart_append blank (apart_cons closes.noDigit rest)
        rw [List.map_cons, List.map_nil, List.intercalate_singleton, here _ apart,
          Option.bind_eq_bind, Option.bind_some]
        simp only [skipBlanks_append blank, skipBlanks_cons closes.noBlank, if_neg closes.noComma]
        rfl
      | cons x' items =>
        have others := ih (fun y mem => each y (List.mem_cons_of_mem _ mem)) (List.cons_ne_nil _ _)
          (Nat.le_of_succ_le_succ enough)
        rw [List.map_cons, List.intercalate_cons_of_ne_nil (by simp), List.append_assoc,
          List.append_assoc, List.singleton_append, here _ (apart_cons (by decide) _),
          Option.bind_eq_bind, Option.bind_some]
        simp only [skipBlanks_cons comma, ↓reduceIte, others]
        rfl

omit closes in
theorem readItems_blanks (skips : ∀ gap : List Char, gap.all isBlank → ∀ chars,
    item (gap ++ chars) = item chars) {gap : List Char} (blank : gap.all isBlank) (fuel : Nat)
    (chars : List Char) :
    readItems item closing fuel (gap ++ chars) = readItems item closing fuel chars := by
  cases fuel with
  | zero => rfl
  | succ fuel => rw [readItems, readItems, skips gap blank]

omit closes in
/-- A gap in front and behind each separator is a gap in front of each item. -/
theorem append_intercalate (gap separator : List Char) {pieces : List (List Char)}
    (some : pieces ≠ []) :
    gap ++ (separator ++ gap).intercalate pieces = separator.intercalate (pieces.map (gap ++ ·)) := by
  induction pieces with
  | nil => exact absurd rfl some
  | cons piece pieces ih =>
    cases pieces with
    | nil => simp
    | cons piece' pieces =>
      have rest := ih (List.cons_ne_nil _ _)
      have right : separator.intercalate ((gap ++ piece) :: (piece' :: pieces).map (gap ++ ·)) =
          gap ++ piece ++ separator ++ separator.intercalate ((piece' :: pieces).map (gap ++ ·)) :=
        List.intercalate_cons_of_ne_nil (by simp)
      rw [List.map_cons, right, ← rest, List.intercalate_cons_of_ne_nil (List.cons_ne_nil _ _)]
      simp only [List.append_assoc]

omit closes in
theorem exists_intercalate_cons (separator front : List Char) (c : Char) (chars : List Char)
    (pieces : List (List Char)) :
    ∃ behind, separator.intercalate ((front ++ c :: chars) :: pieces) = front ++ c :: behind := by
  cases pieces with
  | nil => exact ⟨chars, List.intercalate_singleton⟩
  | cons piece pieces =>
    refine ⟨chars ++ separator ++ separator.intercalate (piece :: pieces), ?_⟩
    rw [List.intercalate_cons_of_ne_nil (List.cons_ne_nil _ _)]
    simp

omit closes in
/-- What is enclosed is a gap and an item each time, with commas between them. -/
theorem toList_enclose_cons (style : Json.Style) (depth : Nat) (opening : String) (closing : Char)
    (text : α → String) (x : α) (items : List α) :
    (Json.enclose style depth opening (.ofList [closing]) ((x :: items).map text)).toList =
      opening.toList ++ ([','].intercalate ((x :: items).map fun y =>
        (style.gap (depth + 1)).toList ++ (text y).toList) ++
          ((style.gap depth).toList ++ [closing])) := by
  have pieces : ((x :: items).map fun y => (style.gap (depth + 1)).toList ++ (text y).toList) =
      ((x :: items).map fun y => (text y).toList).map ((style.gap (depth + 1)).toList ++ ·) := by
    simp
  rw [pieces, ← append_intercalate _ _ (by simp)]
  simp [Json.enclose, String.toList_intercalate, Function.comp_def]

/-- Behind an opening bracket, a gap and the first item are no closing bracket. -/
theorem readEnclosed_intercalate {inner outer : List Char} (blank : inner.all isBlank)
    (blank' : outer.all isBlank) {x : α} (each : ∀ y ∈ x :: items, Reads item (write y) y)
    (skips : ∀ gap : List Char, gap.all isBlank → ∀ chars, item (gap ++ chars) = item chars)
    (starts : Starts closing (write x)) {fuel : Nat} (enough : (x :: items).length ≤ fuel)
    (rest : List Char) :
    readEnclosed item closing fuel ([','].intercalate ((x :: items).map (inner ++ write ·)) ++
      (outer ++ closing :: rest)) = some (x :: items, rest) := by
  have spaced : ∀ y ∈ x :: items, Reads item (inner ++ write y) y := by
    intro y mem rest apart
    rw [List.append_assoc, skips _ blank]
    exact each y mem rest apart
  have read := readItems_intercalate closes blank' spaced (List.cons_ne_nil x items) enough rest
  obtain ⟨c, head, noBlank, noClosing⟩ := starts
  obtain ⟨chars, first⟩ := List.head?_eq_some_iff.1 head
  obtain ⟨behind, front⟩ :=
    exists_intercalate_cons [','] inner c chars (items.map (inner ++ write ·))
  rw [List.map_cons, first, front, List.append_assoc] at read ⊢
  rw [readItems_blanks skips blank] at read
  unfold readEnclosed
  rw [skipBlanks_append blank, List.cons_append, skipBlanks_cons noBlank]
  dsimp only
  rw [if_neg noClosing]
  exact read

/-- Items between brackets are read back, as they are enclosed in a style. -/
theorem exists_readEnclosed {style : Json.Style} (loose : Loose style) (depth : Nat)
    {text : α → String} (each : ∀ x ∈ items, Reads item (text x).toList x)
    (skips : ∀ gap : List Char, gap.all isBlank → ∀ chars, item (gap ++ chars) = item chars)
    (starts : ∀ x ∈ items, Starts closing (text x).toList) {fuel : Nat}
    (enough : items.length ≤ fuel) (opening : String) :
    ∃ written, (Json.enclose style depth opening (.ofList [closing]) (items.map text)).toList =
        opening.toList ++ written ∧
      ∀ rest, readEnclosed item closing fuel (written ++ rest) = some (items, rest) := by
  cases items with
  | nil =>
    refine ⟨[closing], ?_, fun rest => ?_⟩
    · simp [Json.enclose]
    · unfold readEnclosed
      rw [List.singleton_append, skipBlanks_cons closes.noBlank]
      exact if_pos rfl
  | cons x items =>
    refine ⟨_, toList_enclose_cons style depth opening closing text x items, fun rest => ?_⟩
    rw [List.append_assoc, List.append_assoc, List.singleton_append]
    exact readEnclosed_intercalate closes (loose.gap (depth + 1)) (loose.gap depth) each skips
      (starts x List.mem_cons_self) enough rest

end

/-! ## Values -/

theorem readValue_blanks {gap : List Char} (blank : gap.all isBlank) (fuel : Nat)
    (chars : List Char) : readValue fuel (gap ++ chars) = readValue fuel chars := by
  cases fuel with
  | zero => rfl
  | succ fuel => rw [readValue, readValue, skipBlanks_append blank]

theorem readMember_blanks {gap : List Char} (blank : gap.all isBlank) (value : ReadsFront Json)
    (chars : List Char) : readMember value (gap ++ chars) = readMember value chars := by
  unfold readMember
  rw [skipBlanks_append blank]

theorem toList_quote (s : String) :
    (Json.quote s).toList = '"' :: (s.toList.flatMap Json.escape ++ ['"']) := by
  simp [Json.quote]

theorem reads_text (s : String) (fuel : Nat) :
    Reads (readValue (fuel + 1)) (Json.quote s).toList (.text s) := by
  intro rest apart
  rw [toList_quote, List.cons_append, readValue, skipBlanks_cons (by decide), List.append_assoc,
    List.singleton_append]
  simp [readText_flatMap]

/-- A run of digits is taken whole. -/
theorem readNumber_append {digits rest : List Char} (all : ∀ c ∈ digits, c.isDigit) {n : Nat}
    (number : Digits.number? 10 digits = some n) (apart : Apart rest) :
    readNumber (digits ++ rest) = some (.number n, rest) := by
  have none : rest.takeWhile Char.isDigit = [] ∧ rest.dropWhile Char.isDigit = rest := by
    cases rest with
    | nil => exact ⟨rfl, rfl⟩
    | cons c rest =>
      have other := apart c rfl
      simp [other]
  unfold readNumber
  rw [List.takeWhile_append_of_pos all, List.dropWhile_append_of_pos all, none.1, none.2,
    List.append_nil, number]
  rfl

theorem isBlank_of_isDigit {c : Char} (digit : c.isDigit) : isBlank c = false := by
  cases blank : isBlank c with
  | false => rfl
  | true =>
    have other := apart_of_blank blank [] c rfl
    rw [other] at digit
    cases digit

theorem reads_number (n fuel : Nat) :
    Reads (readValue (fuel + 1)) (toString n).toList (.number n) := by
  intro rest apart
  have digits : ∀ c ∈ Nat.toDigits 10 n, c.isDigit := fun c =>
    Nat.isDigit_of_mem_toDigits (by decide) (by decide)
  have read := readNumber_append digits (Digits.number?_toDigits (by decide) (by decide) n) apart
  rw [Digits.toList_toString]
  cases written : Nat.toDigits 10 n with
  | nil => exact absurd written Nat.toDigits_ne_nil
  | cons c others =>
    rw [written] at digits read
    have digit := digits c List.mem_cons_self
    rw [List.cons_append, readValue, skipBlanks_cons (isBlank_of_isDigit digit)]
    dsimp only
    rw [if_pos digit]
    exact read

theorem reads_flag (value : Bool) (fuel : Nat) :
    Reads (readValue (fuel + 1)) (if value then "true" else "false" : String).toList
      (.flag value) := by
  intro rest apart
  cases value with
  | true => rfl
  | false => rfl

theorem reads_member {style : Json.Style} (loose : Loose style) {reader : ReadsFront Json}
    (blanks : ∀ gap : List Char, gap.all isBlank → ∀ chars, reader (gap ++ chars) = reader chars)
    {text : String} {value : Json} (read : Reads reader text.toList value) (key : String) :
    Reads (readMember reader) (Json.quote key ++ style.colon ++ text).toList (key, value) := by
  obtain ⟨gap, colon, blank⟩ := loose.colon
  intro rest apart
  have written : (Json.quote key ++ style.colon ++ text).toList ++ rest =
      '"' :: (key.toList.flatMap Json.escape ++ '"' :: ':' :: (gap ++ (text.toList ++ rest))) := by
    rw [String.toList_append, String.toList_append, toList_quote, colon]
    simp
  have quoted : isBlank '"' = false := rfl
  have between : isBlank ':' = false := rfl
  unfold readMember
  rw [written]
  simp [skipBlanks_cons quoted, readText_flatMap, skipBlanks_cons between, blanks gap blank,
    read rest apart]

/-- No value's text begins with a blank or a closing bracket. -/
theorem starts_render (style : Json.Style) (depth : Nat) (value : Json) {closing : Char}
    (closes : closing = ']' ∨ closing = '\x7d') :
    Starts closing (value.render style depth).toList := by
  have front : ∀ {written : List Char} {c : Char}, written.head? = some c → isBlank c = false →
      c ≠ ']' → c ≠ '\x7d' → Starts closing written := by
    intro written c head noBlank noArray noObject
    refine ⟨c, head, noBlank, ?_⟩
    rcases closes with rfl | rfl
    · exact noArray
    · exact noObject
  have bracket : ∀ (opening : Char) (closing' : String) (items : List String),
      (Json.enclose style depth (.ofList [opening]) closing' items).toList.head? = some opening := by
    intro opening closing' items
    cases items with
    | nil => simp [Json.enclose]
    | cons item items => simp [Json.enclose]
  cases value with
  | flag value =>
    rw [Json.render]
    cases value with
    | true => exact front rfl rfl (by decide) (by decide)
    | false => exact front rfl rfl (by decide) (by decide)
  | number value =>
    rw [Json.render, Digits.toList_toString]
    cases written : Nat.toDigits 10 value with
    | nil => exact absurd written Nat.toDigits_ne_nil
    | cons c others =>
      have digit : c.isDigit :=
        Nat.isDigit_of_mem_toDigits (b := 10) (n := value) (by decide) (by decide)
          (written ▸ List.mem_cons_self)
      refine front rfl (isBlank_of_isDigit digit) ?_ ?_
      · rintro rfl
        cases digit
      · rintro rfl
        cases digit
  | text value =>
    rw [Json.render, toList_quote]
    exact front rfl rfl (by decide) (by decide)
  | array items =>
    rw [Json.render]
    exact front (bracket '[' "]" _) rfl (by decide) (by decide)
  | object members =>
    rw [Json.render]
    exact front (bracket '\x7b' "\x7d" _) rfl (by decide) (by decide)

/-! ## Values are read back -/

theorem sum_length_le_intercalate (separator : String) (items : List String) :
    (items.map String.length).sum ≤ (separator.intercalate items).length := by
  induction items with
  | nil => exact Nat.zero_le _
  | cons item items ih =>
    cases items with
    | nil => simp
    | cons item' items =>
      rw [String.intercalate_cons_cons, List.map_cons, List.sum_cons]
      simp only [String.length_append]
      omega

/-- The lengths of items together are less than the length of their text between brackets. -/
theorem sum_length_lt_enclose (style : Json.Style) (depth : Nat) {opening : String}
    (some : 0 < opening.length) (closing : String) (items : List String) :
    (items.map String.length).sum < (Json.enclose style depth opening closing items).length := by
  cases items with
  | nil =>
    simp only [Json.enclose, String.length_append, List.map_nil, List.sum_nil]
    omega
  | cons item items =>
    have inner := sum_length_le_intercalate ("," ++ style.gap (depth + 1)) (item :: items)
    simp only [Json.enclose, String.length_append]
    omega

theorem Starts.length_pos {closing : Char} {s : String} (h : Starts closing s.toList) :
    0 < s.length := by
  obtain ⟨c, head, -⟩ := h
  rw [← String.length_toList]
  exact List.length_pos_of_mem (List.mem_of_mem_head? head)

/-- The items of a text between brackets are shorter than the text, and no more than its
characters. -/
theorem lengths_of_enclose {α : Type} {text : α → String} {items : List α} {closing : Char}
    (starts : ∀ x ∈ items, Starts closing (text x).toList) {style : Json.Style} {depth fuel : Nat}
    {opening closing' : String} (some : 0 < opening.length)
    (enough : (Json.enclose style depth opening closing' (items.map text)).length ≤ fuel + 1) :
    (∀ x ∈ items, (text x).length ≤ fuel) ∧ items.length ≤ fuel := by
  have sum := sum_length_lt_enclose style depth some closing' (items.map text)
  have together : ((items.map text).map String.length).sum ≤ fuel := by omega
  refine ⟨fun x mem => ?_, ?_⟩
  · exact Nat.le_trans (List.le_sum_of_mem (List.mem_map_of_mem (List.mem_map_of_mem mem))) together
  · refine Nat.le_trans ?_ together
    have each := List.length_le_sum_of_one_le ((items.map text).map String.length) (by
      simp only [List.map_map, List.mem_map, Function.comp]
      rintro _ ⟨x, mem, rfl⟩
      exact (starts x mem).length_pos)
    simpa using each

/-- A value that stands at a depth is read back, whatever fuel there is beyond its length. -/
def ReadsBack (style : Json.Style) (depth : Nat) (value : Json) : Prop :=
  ∀ fuel, (value.render style depth).length ≤ fuel + 1 →
    Reads (readValue (fuel + 1)) (value.render style depth).toList value

section

variable {style : Json.Style} (loose : Loose style) {depth : Nat}

include loose

theorem readsBack_array {items : List Json}
    (each : ∀ item ∈ items, ReadsBack style (depth + 1) item) :
    ReadsBack style depth (.array items) := by
  intro fuel enough
  rw [Json.render] at enough ⊢
  have starts : ∀ item ∈ items, Starts ']' (item.render style (depth + 1)).toList :=
    fun item _ => starts_render style (depth + 1) item (.inl rfl)
  obtain ⟨short, few⟩ := lengths_of_enclose starts (by decide) enough
  have inside : ∀ item ∈ items,
      Reads (readValue fuel) (item.render style (depth + 1)).toList item := by
    intro item mem
    have some := (starts item mem).length_pos
    have fits := short item mem
    cases fuel with
    | zero => omega
    | succ fuel => exact each item mem fuel fits
  obtain ⟨written, same, read⟩ := exists_readEnclosed closes_array loose depth inside
    (fun gap blank => readValue_blanks blank fuel) starts few "["
  intro rest _
  have opened : isBlank '[' = false := rfl
  rw [same]
  change readValue (fuel + 1) ('[' :: (written ++ rest)) = _
  rw [readValue, skipBlanks_cons opened]
  simp [read rest]

theorem readsBack_object {members : List (String × Json)}
    (each : ∀ member ∈ members, ReadsBack style (depth + 1) member.2) :
    ReadsBack style depth (.object members) := by
  intro fuel enough
  rw [Json.render] at enough ⊢
  have starts : ∀ member ∈ members, Starts '\x7d' (Json.quote member.1 ++ style.colon ++
      member.2.render style (depth + 1)).toList := by
    intro member _
    refine ⟨'"', ?_, rfl, by decide⟩
    simp [toList_quote]
  obtain ⟨short, few⟩ := lengths_of_enclose starts (by decide) enough
  have inside : ∀ member ∈ members, Reads (readMember (readValue fuel)) (Json.quote member.1 ++
      style.colon ++ member.2.render style (depth + 1)).toList member := by
    intro member mem
    have fits := short member mem
    have some := (starts_render style (depth + 1) member.2 (.inl rfl)).length_pos
    simp only [String.length_append] at fits
    cases fuel with
    | zero => omega
    | succ fuel =>
      exact reads_member loose (fun gap blank => readValue_blanks blank (fuel + 1))
        (each member mem fuel (by omega)) member.1
  obtain ⟨written, same, read⟩ := exists_readEnclosed closes_object loose depth inside
    (fun gap blank => readMember_blanks blank (readValue fuel)) starts few "\x7b"
  intro rest _
  have opened : isBlank '\x7b' = false := rfl
  rw [same]
  change readValue (fuel + 1) ('\x7b' :: (written ++ rest)) = _
  rw [readValue, skipBlanks_cons opened]
  simp [read rest]

theorem readsBack (depth : Nat) (value : Json) : ReadsBack style depth value := by
  induction depth, value using Json.render.induct with
  | case1 depth =>
    intro fuel _
    rw [Json.render]
    exact reads_flag true fuel
  | case2 depth value other =>
    intro fuel _
    rw [Json.render]
    exact reads_flag value fuel
  | case3 depth value =>
    intro fuel _
    rw [Json.render]
    exact reads_number value fuel
  | case4 depth value =>
    intro fuel _
    rw [Json.render]
    exact reads_text value fuel
  | case5 depth items ih => exact readsBack_array loose ih
  | case6 depth members ih => exact readsBack_object loose ih

end

/-- **A value is read back as it was written.** -/
theorem read_render {style : Json.Style} (loose : Loose style) (depth : Nat) (value : Json) :
    read (value.render style depth).toList = some value := by
  have some := (starts_render style depth value (.inl rfl)).length_pos
  rw [← String.length_toList] at some
  obtain ⟨fuel, length_eq⟩ := Nat.exists_eq_succ_of_ne_zero (Nat.ne_of_gt some)
  have whole := readsBack loose depth value fuel
    (by rw [← String.length_toList, length_eq]) [] nofun
  rw [List.append_nil] at whole
  unfold read
  rw [length_eq, whole]
  rfl

end CodeSpans.JsonReader
