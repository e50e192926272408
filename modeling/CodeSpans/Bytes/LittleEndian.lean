/-!
# Little-endian words

`value` reads a run of bytes as a number, the least significant byte first;
`digits` writes a number in a given width.
-/

namespace CodeSpans.LittleEndian

/-- The number whose base-256 digits are the bytes, least significant first. -/
def value : List UInt8 → Nat
  | [] => 0
  | b :: rest => b.toNat + 256 * value rest

/-- The `width` low base-256 digits of a number, least significant first. -/
def digits : (width : Nat) → Nat → List UInt8
  | 0, _ => []
  | width + 1, n => UInt8.ofNat n :: digits width (n / 256)

@[simp] theorem length_digits (width n : Nat) : (digits width n).length = width := by
  induction width generalizing n with
  | zero => rfl
  | succ width ih => simp [digits, ih]

end CodeSpans.LittleEndian
