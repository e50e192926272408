import CodeSpans.Proofs.Text.Lines
import CodeSpans.Text.Hex

/-!
# Reading digits back

Readers for numbers in bases up to sixteen and for bytes as pairs of hexadecimal digits, with
nothing in common with what writes them. What is written as digits, filled up with zeros or not, is
read back as it was (`number?_toDigits`, `number?_leftpad`, `bytes?_spaced`).
-/

namespace CodeSpans.Digits

def value? (c : Char) : Option Nat :=
  if '0' ≤ c ∧ c ≤ '9' then some (c.toNat - '0'.toNat)
  else if 'a' ≤ c ∧ c ≤ 'f' then some (c.toNat - 'a'.toNat + 10)
  else none

/-- One more digit behind a number. -/
def push? (base n : Nat) (c : Char) : Option Nat :=
  (value? c).bind fun d => if d < base then some (base * n + d) else none

/-- The number that some digits write. -/
def number? (base : Nat) : List Char → Option Nat
  | [] => none
  | c :: digits => (c :: digits).foldlM (push? base) 0

/-- The byte that two digits write. -/
def byte? (high low : Char) : Option UInt8 :=
  (number? 16 [high, low]).map UInt8.ofNat

/-- The bytes that pairs of digits write, with a blank between neighbours. -/
def bytes? : List Char → Option (List UInt8)
  | [] => some []
  | [high, low] => do return [← byte? high low]
  | high :: low :: ' ' :: rest => do return (← byte? high low) :: (← bytes? rest)
  | _ => none

/-- The number that is written behind `0x`. -/
def literal? : List Char → Option Nat
  | '0' :: 'x' :: digits => number? 16 digits
  | _ => none

/-- The byte that two digits behind `0x` write. -/
def byteLiteral? : List Char → Option UInt8
  | ['0', 'x', high, low] => byte? high low
  | _ => none

/-! ## Numbers -/

theorem value?_digitChar : ∀ d < 16, value? d.digitChar = some d := by
  decide

section

variable {base : Nat}

theorem push?_digitChar (small : base ≤ 16) {d : Nat} (lt : d < base) (n : Nat) :
    push? base n d.digitChar = some (base * n + d) := by
  unfold push?
  rw [value?_digitChar d (Nat.lt_of_lt_of_le lt small), Option.bind_some, if_pos lt]

theorem foldlM_toDigits (least : 1 < base) (small : base ≤ 16) (n : Nat) :
    (Nat.toDigits base n).foldlM (push? base) 0 = some n := by
  induction n using Nat.strongRecOn with
  | _ n ih =>
    rcases Nat.lt_or_ge n base with lt | le
    · rw [Nat.toDigits_of_lt_base lt, List.foldlM_cons, push?_digitChar small lt]
      simp
    · have rest := Nat.mod_lt n (Nat.lt_of_succ_lt least)
      rw [Nat.toDigits_of_base_le least le, List.foldlM_append, ih _ (Nat.div_lt_self (by omega) least)]
      simp [push?_digitChar small rest, Nat.div_add_mod]

theorem number?_eq_foldlM {digits : List Char} (some : digits ≠ []) :
    number? base digits = digits.foldlM (push? base) 0 := by
  cases digits with
  | nil => exact absurd rfl some
  | cons c digits => rfl

theorem number?_toDigits (least : 1 < base) (small : base ≤ 16) (n : Nat) :
    number? base (Nat.toDigits base n) = some n := by
  rw [number?_eq_foldlM Nat.toDigits_ne_nil, foldlM_toDigits least small]

/-- Zeros in front do not change a number. -/
theorem number?_leftpad (least : 1 < base) (small : base ≤ 16) (width n : Nat) :
    number? base ((Nat.toDigits base n).leftpad width '0') = some n := by
  have zeros : ∀ count, (List.replicate count '0').foldlM (push? base) 0 = some 0 := by
    intro count
    induction count with
    | zero => rfl
    | succ count ih =>
      have zero : push? base 0 '0' = some 0 := push?_digitChar small (Nat.lt_of_succ_lt least) 0
      rw [List.replicate_succ, List.foldlM_cons, zero]
      exact ih
  unfold List.leftpad
  rw [number?_eq_foldlM (by simp [Nat.toDigits_ne_nil]), List.foldlM_append, zeros]
  exact foldlM_toDigits least small n

/-- What is read as a number has only digits. -/
theorem notMem_of_number? {digits : List Char} {n : Nat} (number : number? base digits = some n)
    {c : Char} (other : value? c = none) : c ∉ digits := by
  have each : ∀ {digits : List Char} {n m : Nat}, digits.foldlM (push? base) n = some m →
      c ∉ digits := by
    intro digits
    induction digits with
    | nil => simp
    | cons c' digits ih =>
      intro n m read
      rw [List.foldlM_cons, Option.bind_eq_bind, Option.bind_eq_some_iff] at read
      obtain ⟨n', pushed, read⟩ := read
      rw [List.mem_cons, not_or]
      refine ⟨?_, ih read⟩
      rintro rfl
      rw [push?, other, Option.bind_none] at pushed
      cases pushed
  cases digits with
  | nil => simp
  | cons c' digits => exact each number

end

/-! ## Numbers as they are written -/

theorem toList_toString (n : Nat) : (toString n).toList = Nat.toDigits 10 n :=
  Nat.toList_repr

theorem toString_ne_nil (n : Nat) : (toString n).toList ≠ [] := by
  rw [toList_toString]
  exact Nat.toDigits_ne_nil

theorem number?_toString (n : Nat) : number? 10 (toString n).toList = some n := by
  rw [toList_toString]
  exact number?_toDigits (by decide) (by decide) n

theorem number?_digits (n : Nat) : number? 16 (Hex.digits n).toList = some n := by
  unfold Hex.digits
  rw [String.toList_ofList]
  exact number?_toDigits (by decide) (by decide) n

theorem number?_padded (width n : Nat) : number? 16 (Hex.padded width n).toList = some n := by
  unfold Hex.padded
  rw [String.toList_ofList]
  exact number?_leftpad (by decide) (by decide) width n

/-! ## Bytes -/

theorem byte?_pair (b : UInt8) : 
    byte? (Nat.digitChar (b.toNat / 16)) (Nat.digitChar (b.toNat % 16)) = some b := by
  have lt := b.toNat_lt
  have high : b.toNat / 16 < 16 := by omega
  have low : b.toNat % 16 < 16 := by omega
  unfold byte?
  rw [number?_eq_foldlM (by simp), List.foldlM_cons, push?_digitChar (Nat.le_refl _) high]
  simp [push?_digitChar (Nat.le_refl _) low, Nat.div_add_mod]

theorem bytes?_intercalate (bytes : List UInt8) :
    bytes? ([' '].intercalate (bytes.map Hex.pair)) = some bytes := by
  induction bytes with
  | nil => rfl
  | cons b bytes ih =>
    cases bytes with
    | nil => simp [Hex.pair, bytes?, byte?_pair]
    | cons b' bytes =>
      rw [List.map_cons, List.map_cons, List.intercalate_cons_cons, ← List.map_cons]
      change bytes? (_ :: _ :: ' ' :: [' '].intercalate ((b' :: bytes).map Hex.pair)) = _
      rw [bytes?, byte?_pair, ih]
      rfl

theorem bytes?_spaced (bytes : List UInt8) : bytes? (Hex.spaced bytes).toList = some bytes := by
  unfold Hex.spaced
  have pairs : (String.toList ∘ Hex.byte) = Hex.pair := funext Hex.toList_byte
  rw [String.toList_intercalate, List.map_map, pairs]
  exact bytes?_intercalate bytes

/-! ## Literals -/

theorem literal?_literal (n : Nat) : literal? (Hex.literal n).toList = some n := by
  unfold Hex.literal
  rw [String.toList_append]
  exact number?_digits n

theorem byteLiteral?_byteLiteral (b : UInt8) :
    byteLiteral? (Hex.byteLiteral b).toList = some b := by
  unfold Hex.byteLiteral
  rw [String.toList_append, Hex.toList_byte]
  exact byte?_pair b

/-! ## Digits on a line -/

theorem oneLine_toString (n : Nat) : Lines.OneLine (toString n) := by
  unfold Lines.OneLine
  exact notMem_of_number? (number?_toString n) rfl

theorem oneLine_padded (width n : Nat) : Lines.OneLine (Hex.padded width n) :=
  notMem_of_number? (number?_padded width n) rfl

theorem oneLine_digits (n : Nat) : Lines.OneLine (Hex.digits n) :=
  notMem_of_number? (number?_digits n) rfl

theorem oneLine_literal (n : Nat) : Lines.OneLine (Hex.literal n) :=
  Lines.oneLine_append.2 ⟨by decide, oneLine_digits n⟩

theorem oneLine_byte (b : UInt8) : Lines.OneLine (Hex.byte b) := by
  obtain ⟨n, number, -⟩ := Option.map_eq_some_iff.1 (byte?_pair b)
  exact Lines.oneLine_ofList.2 (notMem_of_number? number rfl)

theorem oneLine_byteLiteral (b : UInt8) : Lines.OneLine (Hex.byteLiteral b) :=
  Lines.oneLine_append.2 ⟨by decide, oneLine_byte b⟩

theorem oneLine_spaced (bytes : List UInt8) : Lines.OneLine (Hex.spaced bytes) := by
  refine Lines.oneLine_intercalate (by decide) fun item mem => ?_
  obtain ⟨b, -, rfl⟩ := List.mem_map.1 mem
  exact oneLine_byte b

end CodeSpans.Digits
