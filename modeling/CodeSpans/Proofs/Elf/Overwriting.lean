import CodeSpans.Elf.Image
import CodeSpans.Proofs.Bytes.Agreement

/-!
# Overwritten images

Other bytes in a place of an image leave its size and all other places as they are
(`equalOutside_overwrite`), and are what is then found there (`cut_overwrite`). A number that is
written is stored, and every number apart from it still is (`number_overwriteNumber`,
`number_overwriteNumber_apart`).
-/

namespace CodeSpans.Elf

variable (image : View) (offset : Nat) (bytes : List UInt8)

theorem toList_overwrite : (overwrite image offset bytes).toList =
    image.toList.take offset ++ bytes.take (image.size - offset) ++
      image.toList.drop (offset + bytes.length) := by
  unfold overwrite View.toList View.size
  simp [List.extract_eq_take_drop, List.take_of_length_le]

theorem size_overwrite : (overwrite image offset bytes).size = image.size := by
  rw [← View.length_toList, toList_overwrite]
  simp only [List.length_append, List.length_take, List.length_drop, View.length_toList]
  omega

theorem equalOutside_overwrite :
    View.EqualOutside (places offset bytes.length) image (overwrite image offset bytes) where
  size_eq := (size_overwrite image offset bytes).symm
  byte_eq i out := by
    have apart : i < offset ∨ offset + bytes.length ≤ i := by
      by_contra inside
      exact out ⟨by omega, by omega⟩
    rw [toList_overwrite]
    rcases Nat.lt_or_ge i image.size with lt | beyond
    · rcases apart with before | behind
      · rw [List.append_assoc, List.getElem?_append_left, List.getElem?_take_of_lt before]
        simp only [List.length_take, View.length_toList]
        omega
      · rw [List.getElem?_append_right, List.getElem?_drop]
        · simp only [List.length_append, List.length_take, View.length_toList]
          congr 1
          omega
        · simp only [List.length_append, List.length_take, View.length_toList]
          omega
    · rw [List.getElem?_eq_none, List.getElem?_eq_none]
      · rw [← toList_overwrite, View.length_toList, size_overwrite]
        exact beyond
      · rw [View.length_toList]
        exact beyond

variable {image offset bytes}

/-- What is written in an image is there. -/
theorem cut_overwrite (within : offset + bytes.length ≤ image.size) :
    ((overwrite image offset bytes).toList.drop offset).take bytes.length = bytes := by
  have front : (image.toList.take offset).length = offset := by
    rw [List.length_take, View.length_toList]
    omega
  have all : bytes.take (image.size - offset) = bytes := List.take_of_length_le (by omega)
  rw [toList_overwrite, all, List.append_assoc, List.drop_left' front, List.take_left' rfl]

theorem getElem?_overwrite (within : offset + bytes.length ≤ image.size) {i : Nat}
    (lt : i < bytes.length) : (overwrite image offset bytes).toList[offset + i]? = bytes[i]? := by
  have byte := congrArg (·[i]?) (cut_overwrite within)
  rwa [List.getElem?_take_of_lt lt, List.getElem?_drop] at byte

theorem number_overwrite (within : offset + bytes.length ≤ image.size) :
    (overwrite image offset bytes).number bytes.length offset = LittleEndian.value bytes := by
  unfold View.number
  rw [cut_overwrite within]

/-! ## Numbers -/

/-- The image with a number in a place of a given width. -/
def overwriteNumber (image : View) (width offset n : Nat) : View :=
  overwrite image offset (LittleEndian.digits width n)

section

variable {width n : Nat}

theorem size_overwriteNumber : (overwriteNumber image width offset n).size = image.size :=
  size_overwrite image offset _

theorem equalOutside_overwriteNumber (image : View) (width offset n : Nat) :
    View.EqualOutside (places offset width) image (overwriteNumber image width offset n) := by
  have outside := equalOutside_overwrite image offset (LittleEndian.digits width n)
  rwa [LittleEndian.length_digits] at outside

theorem number_overwriteNumber (within : offset + width ≤ image.size) (lt : n < 256 ^ width) :
    (overwriteNumber image width offset n).number width offset = n := by
  have within' : offset + (LittleEndian.digits width n).length ≤ image.size := by
    rwa [LittleEndian.length_digits]
  have written := number_overwrite within'
  rwa [LittleEndian.length_digits, LittleEndian.value_digits, Nat.mod_eq_of_lt lt] at written

theorem number_overwriteNumber_apart {width' place : Nat}
    (apart : offset + width ≤ place ∨ place + width' ≤ offset) :
    (overwriteNumber image width offset n).number width' place = image.number width' place :=
  ((equalOutside_overwriteNumber image width offset n).number_eq (places_disjoint apart)).symm

end

end CodeSpans.Elf
