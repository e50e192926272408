import CodeSpans.Bytes.View
import CodeSpans.Proofs.Answer
import CodeSpans.Proofs.Bytes.LittleEndian

/-!
# Words of views

`View.number` is the number that some bytes of a view stand for, without regard to whether they are
all there. A read of a word has an answer exactly where they are, and the answer is that number
(`View.word32_eq_ok_iff` and the like for other widths).
-/

namespace CodeSpans.View

/-- The little-endian number in the `width` bytes from `offset` on. -/
def number (v : View) (width offset : Nat) : Nat :=
  LittleEndian.value ((v.toList.drop offset).take width)

section

variable {v : View} {width offset : Nat}

theorem slice_eq_ok_iff {w : View} {length : Nat} :
    v.slice offset length = .ok w ↔
      offset + length ≤ v.size ∧ w.toList = (v.toList.drop offset).take length := by
  have whole : (⟨v.bytes.extract offset (offset + length)⟩ : View).toList =
      (v.toList.drop offset).take length := by
    unfold toList
    rw [Array.toList_extract, List.extract_eq_take_drop, Nat.add_sub_cancel_left]
  rcases Nat.lt_or_ge v.size (offset + length) with beyond | within
  · rw [slice_eq_error beyond]
    exact ⟨nofun, fun h => absurd h.1 (by omega)⟩
  · rw [slice_eq_ok within, ← whole, Except.ok.injEq, and_iff_right within]
    constructor
    · rintro rfl
      rfl
    · intro same
      cases w
      exact congrArg View.mk (Array.toList_inj.1 same.symm)

theorem size_of_cut {w : View} (within : offset + width ≤ v.size)
    (bytes : w.toList = (v.toList.drop offset).take width) : w.size = width := by
  rw [← length_toList, bytes, List.length_take, List.length_drop, length_toList]
  omega

theorem size_of_slice {w : View} (sliced : v.slice offset width = .ok w) : w.size = width := by
  obtain ⟨within, bytes⟩ := slice_eq_ok_iff.1 sliced
  exact size_of_cut within bytes

theorem number_lt (v : View) (width offset : Nat) : v.number width offset < 256 ^ width := by
  have short : ((v.toList.drop offset).take width).length ≤ width := List.length_take_le _ _
  have below := LittleEndian.value_lt ((v.toList.drop offset).take width)
  exact Nat.lt_of_lt_of_le below (Nat.pow_le_pow_right (by decide) short)

theorem word_eq_ok (within : offset + width ≤ v.size) :
    v.word width offset = .ok (v.number width offset) := by
  obtain ⟨s, hs⟩ : ∃ s, v.slice offset width = .ok s := ⟨_, slice_eq_ok within⟩
  unfold word number
  rw [hs, ← (slice_eq_ok_iff.1 hs).2]
  rfl

theorem word_eq_error (beyond : v.size < offset + width) :
    v.word width offset = .error ⟨offset, width, v.size⟩ := by
  unfold word
  rw [slice_eq_error beyond]
  rfl

theorem exists_word {α : Type} {ofNat : Nat → α} (within : offset + width ≤ v.size) :
    ∃ a, (v.word width offset).map ofNat = .ok a :=
  ⟨_, congrArg (Except.map ofNat) (word_eq_ok within)⟩

/-- A word in a type whose values are the numbers of its width. -/
theorem map_word_eq_ok_iff {α : Type} {ofNat : Nat → α} {toNat : α → Nat}
    (left : ∀ a, ofNat (toNat a) = a) (right : ∀ n < 256 ^ width, toNat (ofNat n) = n) {a : α} :
    (v.word width offset).map ofNat = .ok a ↔
      offset + width ≤ v.size ∧ toNat a = v.number width offset := by
  rw [Answer.map_eq_ok_iff]
  rcases Nat.lt_or_ge v.size (offset + width) with beyond | within
  · rw [word_eq_error beyond]
    exact ⟨nofun, fun h => absurd h.1 (by omega)⟩
  · rw [word_eq_ok within, and_iff_right within]
    constructor
    · rintro ⟨n, same, rfl⟩
      cases same
      exact right _ (number_lt v width offset)
    · intro same
      exact ⟨_, rfl, by rw [← same, left]⟩

theorem byte_eq_ok_iff {b : UInt8} :
    v.byte offset = .ok b ↔ offset + 1 ≤ v.size ∧ b.toNat = v.number 1 offset :=
  map_word_eq_ok_iff (fun _ => UInt8.ofNat_toNat) fun _ => UInt8.toNat_ofNat_of_lt

theorem byte_of_getElem? {b : UInt8} (found : v.toList[offset]? = some b) :
    v.byte offset = .ok b := by
  obtain ⟨within, same⟩ := List.getElem?_eq_some_iff.1 found
  rw [length_toList] at within
  refine byte_eq_ok_iff.2 ⟨within, ?_⟩
  rw [number, List.drop_eq_getElem_cons (by rwa [length_toList]), List.take_succ_cons,
    List.take_zero, same]
  rfl

theorem word16_eq_ok_iff {w : UInt16} :
    v.word16 offset = .ok w ↔ offset + 2 ≤ v.size ∧ w.toNat = v.number 2 offset :=
  map_word_eq_ok_iff (fun _ => UInt16.ofNat_toNat) fun _ => UInt16.toNat_ofNat_of_lt

theorem word32_eq_ok_iff {w : UInt32} :
    v.word32 offset = .ok w ↔ offset + 4 ≤ v.size ∧ w.toNat = v.number 4 offset :=
  map_word_eq_ok_iff (fun _ => UInt32.ofNat_toNat) fun _ => UInt32.toNat_ofNat_of_lt

theorem word64_eq_ok_iff {w : UInt64} :
    v.word64 offset = .ok w ↔ offset + 8 ≤ v.size ∧ w.toNat = v.number 8 offset :=
  map_word_eq_ok_iff (fun _ => UInt64.ofNat_toNat) fun _ => UInt64.toNat_ofNat_of_lt

end

end CodeSpans.View
