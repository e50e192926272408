/-!
# Reading UTF-8 that may be broken

`decode` turns any bytes into text. A well-formed sequence gives its character.
Where a sequence breaks off, the longest start of it that could still have
become a character gives one replacement character, and reading goes on behind
that start; a byte that can start nothing is replaced alone. `characters` says
this on lists, and `toList_decode` that `decode` does the same.
-/

namespace CodeSpans.Utf8

/-- Stands for bytes that form no character. -/
def replacement : Char := '\ufffd'

/-- How many bytes the sequence that starts with `lead` has, zero when none starts so. -/
def width (lead : UInt8) : Nat :=
  if lead < 0x80 then 1
  else if lead < 0xc2 then 0
  else if lead < 0xe0 then 2
  else if lead < 0xf0 then 3
  else if lead < 0xf5 then 4
  else 0

/-- The least second byte after `lead`; smaller ones would spell a shorter sequence. -/
def secondLow (lead : UInt8) : UInt8 :=
  if lead = 0xe0 then 0xa0 else if lead = 0xf0 then 0x90 else 0x80

/-- The greatest second byte after `lead`; greater ones would spell a surrogate or no
code point at all. -/
def secondHigh (lead : UInt8) : UInt8 :=
  if lead = 0xed then 0x9f else if lead = 0xf4 then 0x8f else 0xbf

/-- At most `count` bytes off the front that may follow in a sequence, the first of them
between `low` and `high`. -/
def trail : (count : Nat) → (low high : UInt8) → List UInt8 → List UInt8
  | 0, _, _, _ => []
  | _ + 1, _, _, [] => []
  | count + 1, low, high, b :: rest =>
    if low ≤ b ∧ b ≤ high then b :: trail count 0x80 0xbf rest else []

/-- The bits of the code point that the first byte of a sequence carries. -/
def leadBits (lead : UInt8) : Nat :=
  if lead < 0x80 then lead.toNat
  else if lead < 0xe0 then lead.toNat % 32
  else if lead < 0xf0 then lead.toNat % 16
  else lead.toNat % 8

/-- The code point of a sequence; each byte behind the first carries six bits. -/
def codePoint (lead : UInt8) (behind : List UInt8) : Nat :=
  behind.foldl (fun bits b => bits * 64 + b.toNat % 64) (leadBits lead)

/-- The character of the sequence that starts with `lead`, or the replacement when too few
bytes can follow. -/
def character (lead : UInt8) (behind : List UInt8) : Char :=
  if behind.length + 1 = width lead then Char.ofNat (codePoint lead behind) else replacement

/-- The characters that the bytes spell. -/
def characters : List UInt8 → List Char
  | [] => []
  | lead :: rest =>
    let behind := trail (width lead - 1) (secondLow lead) (secondHigh lead) rest
    character lead behind :: characters (rest.drop behind.length)
termination_by bytes => bytes.length
decreasing_by simp only [List.length_cons, List.length_drop]; omega

/-- The text followed by the characters that the bytes spell. -/
def extend (text : String) : List UInt8 → String
  | [] => text
  | lead :: rest =>
    let behind := trail (width lead - 1) (secondLow lead) (secondHigh lead) rest
    extend (text.push (character lead behind)) (rest.drop behind.length)
termination_by bytes => bytes.length
decreasing_by simp only [List.length_cons, List.length_drop]; omega

def decode (bytes : List UInt8) : String :=
  extend "" bytes

theorem toList_extend (text : String) (bytes : List UInt8) :
    (extend text bytes).toList = text.toList ++ characters bytes := by
  fun_induction extend text bytes with
  | case1 text => simp [characters]
  | case2 text lead rest behind ih =>
    rw [ih, characters]
    simp [behind]

@[simp] theorem toList_decode (bytes : List UInt8) :
    (decode bytes).toList = characters bytes := by
  simp [decode, toList_extend]

end CodeSpans.Utf8
