import CodeSpans.Bytes.LittleEndian
import Mathlib.Algebra.Group.Nat.Defs

/-!
# Words read back

A run of `n` bytes is below `256 ^ n` (`value_lt`), no other run of that length has its number
(`value_injective`), and what is written reads back modulo `256 ^ width` (`value_digits`).
-/

namespace CodeSpans.LittleEndian

theorem value_lt (bytes : List UInt8) : value bytes < 256 ^ bytes.length := by
  induction bytes with
  | nil => simp [value]
  | cons b rest ih =>
    have hb := b.toNat_lt
    simp only [value, List.length_cons, Nat.pow_succ]
    omega

theorem value_injective {bytes bytes' : List UInt8} (length : bytes.length = bytes'.length)
    (same : value bytes = value bytes') : bytes = bytes' := by
  induction bytes generalizing bytes' with
  | nil => exact (List.eq_nil_of_length_eq_zero length.symm).symm
  | cons b rest ih =>
    cases bytes' with
    | nil => cases length
    | cons b' rest' =>
      have hb := b.toNat_lt
      have hb' := b'.toNat_lt
      simp only [value] at same
      have first : b = b' := UInt8.toNat_inj.1 (by omega)
      rw [first, ih (Nat.succ.inj length) (by omega)]

theorem value_digits (width n : Nat) : value (digits width n) = n % 256 ^ width := by
  induction width generalizing n with
  | zero => simp [digits, value, Nat.mod_one]
  | succ width ih =>
    have low : (UInt8.ofNat n).toNat = n % 256 := UInt8.toNat_ofNat'
    rw [digits, value, ih, low, Nat.pow_succ, Nat.mul_comm (256 ^ width) 256, Nat.mod_mul]

end CodeSpans.LittleEndian
