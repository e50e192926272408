import CodeSpans.Text.Utf8
import Mathlib.Data.List.Basic

/-!
# UTF-8 read back

Text that is written as UTF-8 is read as it was (`Utf8.decode_toUTF8`), and has a NUL byte only for
a NUL character (`Utf8.zero_not_mem_toUTF8`).
-/

namespace CodeSpans.Utf8

/-! ## Sequences -/

theorem characters_sequence {lead : UInt8} {c : Char} (behind rest : List UInt8)
    (wide : width lead = behind.length + 1)
    (trails : trail behind.length (secondLow lead) (secondHigh lead) (behind ++ rest) = behind)
    (point : codePoint lead behind = c.toNat) :
    characters (lead :: (behind ++ rest)) = c :: characters rest := by
  have first : character lead behind = c := by
    rw [character, if_pos wide.symm, point, Char.ofNat_toNat]
  rw [characters, wide, Nat.add_sub_cancel, trails, first, List.drop_left]

theorem trail_cons {count : Nat} {low high b : UInt8} {rest : List UInt8}
    (above : low.toNat ≤ b.toNat) (below : b.toNat ≤ high.toNat) :
    trail (count + 1) low high (b :: rest) = b :: trail count 0x80 0xbf rest :=
  if_pos ⟨above, below⟩

theorem width_eq (lead : UInt8) : width lead =
    if lead.toNat < 0x80 then 1 else if lead.toNat < 0xc2 then 0 else if lead.toNat < 0xe0 then 2
    else if lead.toNat < 0xf0 then 3 else if lead.toNat < 0xf5 then 4 else 0 := rfl

theorem leadBits_eq (lead : UInt8) : leadBits lead =
    if lead.toNat < 0x80 then lead.toNat else if lead.toNat < 0xe0 then lead.toNat % 32
    else if lead.toNat < 0xf0 then lead.toNat % 16 else lead.toNat % 8 := rfl

theorem toNat_secondLow (lead : UInt8) : (secondLow lead).toNat =
    if lead.toNat = 0xe0 then 0xa0 else if lead.toNat = 0xf0 then 0x90 else 0x80 := by
  unfold secondLow
  rw [apply_ite UInt8.toNat, apply_ite UInt8.toNat]
  simp only [← UInt8.toNat_inj]
  rfl

theorem toNat_secondHigh (lead : UInt8) : (secondHigh lead).toNat =
    if lead.toNat = 0xed then 0x9f else if lead.toNat = 0xf4 then 0x8f else 0xbf := by
  unfold secondHigh
  rw [apply_ite UInt8.toNat, apply_ite UInt8.toNat]
  simp only [← UInt8.toNat_inj]
  rfl

/-! ## One character -/

/-- A byte behind the first of a sequence, with six bits of a code point. -/
theorem toNat_behind (bits : Nat) : (UInt8.ofNat (bits % 64 + 128)).toNat = bits % 64 + 128 := by
  rw [UInt8.toNat_ofNat']
  omega

theorem trail_behind {count : Nat} (bits : Nat) (rest : List UInt8) :
    trail (count + 1) 0x80 0xbf (UInt8.ofNat (bits % 64 + 128) :: rest) =
      UInt8.ofNat (bits % 64 + 128) :: trail count 0x80 0xbf rest := by
  apply trail_cons
  · rw [toNat_behind]
    exact Nat.le_add_left 128 _
  · rw [toNat_behind]
    change bits % 64 + 128 ≤ 191
    omega

section

variable {v : Nat} {c : Char} (rest : List UInt8) (same : c.toNat = v)

include same

theorem characters_one (high : v ≤ 0x7f) :
    characters (UInt8.ofNat v :: rest) = c :: characters rest := by
  have lead : (UInt8.ofNat v).toNat = v := by
    rw [UInt8.toNat_ofNat']
    omega
  apply characters_sequence [] rest
  · rw [width_eq, lead, if_pos (by omega)]
    rfl
  · rfl
  · rw [codePoint, List.foldl_nil, leadBits_eq, lead, if_pos (by omega), same]

theorem characters_two (low : 0x80 ≤ v) (high : v ≤ 0x7ff) :
    characters (UInt8.ofNat (v / 64 % 32 + 192) :: UInt8.ofNat (v % 64 + 128) :: rest) =
      c :: characters rest := by
  have lead : (UInt8.ofNat (v / 64 % 32 + 192)).toNat = v / 64 + 192 := by
    rw [UInt8.toNat_ofNat']
    omega
  apply characters_sequence [_] rest
  · change width _ = 2
    rw [width_eq, lead]
    split_ifs <;> omega
  · apply trail_cons
    · rw [toNat_secondLow, lead, toNat_behind]
      split_ifs <;> omega
    · rw [toNat_secondHigh, lead, toNat_behind]
      split_ifs <;> omega
  · simp only [codePoint, List.foldl_cons, List.foldl_nil, leadBits_eq, lead, toNat_behind, same]
    split_ifs <;> omega

theorem characters_three (low : 0x800 ≤ v) (high : v ≤ 0xffff)
    (scalar : v < 0xd800 ∨ 0xdfff < v) :
    characters (UInt8.ofNat (v / 4096 % 16 + 224) :: UInt8.ofNat (v / 64 % 64 + 128) ::
      UInt8.ofNat (v % 64 + 128) :: rest) = c :: characters rest := by
  have lead : (UInt8.ofNat (v / 4096 % 16 + 224)).toNat = v / 4096 + 224 := by
    rw [UInt8.toNat_ofNat']
    omega
  apply characters_sequence [_, _] rest
  · change width _ = 3
    rw [width_eq, lead]
    split_ifs <;> omega
  · change trail 2 _ _ (_ :: _ :: rest) = _
    -- a first byte with no bits asks for a second byte that spells no shorter sequence, and 0xed
    -- for one that spells no surrogate
    rw [trail_cons, trail_behind]
    · rfl
    · rw [toNat_secondLow, lead, toNat_behind]
      split_ifs <;> omega
    · rw [toNat_secondHigh, lead, toNat_behind]
      split_ifs <;> omega
  · simp only [codePoint, List.foldl_cons, List.foldl_nil, leadBits_eq, lead, toNat_behind, same]
    split_ifs <;> omega

theorem characters_four (low : 0x10000 ≤ v) (high : v < 0x110000) :
    characters (UInt8.ofNat (v / 262144 % 8 + 240) :: UInt8.ofNat (v / 4096 % 64 + 128) ::
      UInt8.ofNat (v / 64 % 64 + 128) :: UInt8.ofNat (v % 64 + 128) :: rest) =
        c :: characters rest := by
  have lead : (UInt8.ofNat (v / 262144 % 8 + 240)).toNat = v / 262144 + 240 := by
    rw [UInt8.toNat_ofNat']
    omega
  apply characters_sequence [_, _, _] rest
  · change width _ = 4
    rw [width_eq, lead]
    split_ifs <;> omega
  · change trail 3 _ _ (_ :: _ :: _ :: rest) = _
    -- here 0xf4 bounds the second byte, by the greatest code point
    rw [trail_cons, trail_behind, trail_behind]
    · rfl
    · rw [toNat_secondLow, lead, toNat_behind]
      split_ifs <;> omega
    · rw [toNat_secondHigh, lead, toNat_behind]
      split_ifs <;> omega
  · simp only [codePoint, List.foldl_cons, List.foldl_nil, leadBits_eq, lead, toNat_behind, same]
    split_ifs <;> omega

end

theorem characters_utf8EncodeChar (c : Char) (rest : List UInt8) :
    characters (String.utf8EncodeChar c ++ rest) = c :: characters rest := by
  have scalar : c.toNat < 0xd800 ∨ 0xdfff < c.toNat ∧ c.toNat < 0x110000 := c.valid
  have same : c.toNat = c.val.toNat := rfl
  rw [same] at scalar
  unfold String.utf8EncodeChar
  simp only
  split_ifs with one two three
  · exact characters_one rest same one
  · exact characters_two rest same (by omega) two
  · exact characters_three rest same (by omega) three (by omega)
  · exact characters_four rest same (by omega) (by omega)

/-! ## Text -/

theorem toList_toUTF8 (text : String) :
    text.toUTF8.data.toList = text.toList.flatMap String.utf8EncodeChar := by
  rw [String.toUTF8_eq_toByteArray, ← String.utf8Encode_toList, List.utf8Encode,
    List.toList_data_toByteArray]

theorem characters_flatMap (chars : List Char) :
    characters (chars.flatMap String.utf8EncodeChar) = chars := by
  induction chars with
  | nil =>
    rw [List.flatMap_nil, characters]
  | cons c chars ih =>
    rw [List.flatMap_cons, characters_utf8EncodeChar, ih]

theorem decode_toUTF8 (text : String) : decode text.toUTF8.data.toList = text := by
  apply String.toList_inj.1
  rw [toList_decode, toList_toUTF8, characters_flatMap]

theorem zero_not_mem_cons {n : Nat} {rest : List UInt8} (h : n % 256 ≠ 0) (behind : 0 ∉ rest) :
    0 ∉ UInt8.ofNat n :: rest := by
  intro mem
  rcases List.mem_cons.1 mem with same | mem
  · have zero := congrArg UInt8.toNat same
    rw [UInt8.toNat_ofNat'] at zero
    exact h zero.symm
  · exact behind mem

theorem zero_not_mem_utf8EncodeChar {c : Char} (visible : c ≠ '\x00') :
    0 ∉ String.utf8EncodeChar c := by
  have positive : c.val.toNat ≠ 0 := by
    intro zero
    exact visible (Char.ext (UInt32.toNat_inj.1 zero))
  unfold String.utf8EncodeChar
  simp only
  split_ifs with one two three
  · apply zero_not_mem_cons (by omega)
    exact List.not_mem_nil
  · apply zero_not_mem_cons (by omega)
    apply zero_not_mem_cons (by omega)
    exact List.not_mem_nil
  · apply zero_not_mem_cons (by omega)
    apply zero_not_mem_cons (by omega)
    apply zero_not_mem_cons (by omega)
    exact List.not_mem_nil
  · apply zero_not_mem_cons (by omega)
    apply zero_not_mem_cons (by omega)
    apply zero_not_mem_cons (by omega)
    apply zero_not_mem_cons (by omega)
    exact List.not_mem_nil

theorem zero_not_mem_toUTF8 {text : String} (visible : '\x00' ∉ text.toList) :
    0 ∉ text.toUTF8.data.toList := by
  rw [toList_toUTF8]
  intro mem
  obtain ⟨c, hc, mem⟩ := List.mem_flatMap.1 mem
  refine zero_not_mem_utf8EncodeChar ?_ mem
  rintro rfl
  exact visible hc

end CodeSpans.Utf8
