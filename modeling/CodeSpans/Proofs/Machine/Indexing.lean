import CodeSpans.Proofs.Machine.Fault

/-!
# Indexing on words

`ofImage` indexes an image as `SectionTable.ofImage` does, in runs that may fault: the identification
is indexed, the place of an entry and of each of its fields is computed, and a name is cut out of
the names by offsets. Every image whose size is below half of the words is indexed as on numbers,
and the names and contents of its sections are found as on numbers. What keeps an entry's place
from leaving the words is that the whole table has been asked for; what keeps the place of a name
from it is that the names have been.
-/

namespace CodeSpans.Machine

open Elf

/-! ## The header -/

/-- Checks the identification bytes, in the header that was sliced. -/
def checkIdentification (image : View) : Run Error Unit := do
  let header ← slice image 0 (.ofNat headerSize)
  let front ← range header 0 (.ofNat magic.length)
  if front.toList ≠ magic then
    throw .badMagic
  let classByte ← index header.bytes 4
  if classByte ≠ class64 then
    throw (.unsupportedClass classByte)
  let encoding ← index header.bytes 5
  if encoding ≠ littleEndian then
    throw (.unsupportedEncoding encoding)

/-! ## Sections -/

/-- The content; where it is not in the image, an empty part of it. -/
def content (image : View) (s : Section) : Run Error View := do
  if s.hasContent then slice image s.fileOffset s.size else slice image 0 0

/-- Operations that fault where a sum or a product is not exact. -/
def operations (image : View) : Word.Operations (Run Error) where
  checkIdentification := checkIdentification image
  ofNat n := do return (← toWord n).val
  add a b := do return (← add a b).val
  mul a b := do return (← mul a b).val
  word16 offset := word16 image offset
  word32 offset := word32 image offset
  word64 offset := word64 image offset
  slice offset size := slice image offset size

def ofImage (image : View) : Run Error SectionTable :=
  SectionTable.ofImageBy ((operations image).reads image) image

/-! ## Names -/

/-- The bytes before the first NUL, cut out by the place of the NUL. -/
def upToNul {ε : Type} (v : View) : Run ε (Option View) := do
  match v.toList.findIdx? (· == 0) with
  | none => return none
  | some last => return some (← range v 0 (← toWord last))

/-- The name of a section. Where a name without an end begins is computed before the name is
looked for. -/
def name (t : SectionTable) (s : Section) : Run Error String := do
  match t.names with
  | none => throw .noNames
  | some holder =>
    let table ← slice t.image holder.fileOffset holder.size
    let start := s.nameOffset.toUInt64
    let place ← add holder.fileOffset start
    let unterminated : Error := .truncated ⟨place.val.toNat, 1, t.image.size⟩
    let size ← length table
    if size.val < start then
      throw unterminated
    let tail ← range table start size
    match ← upToNul tail with
    | none => throw unterminated
    | some bytes => return Utf8.decode bytes.toList

def find (t : SectionTable) (wanted : String) : Run Error Section :=
  SectionTable.firstNamed (name t) wanted t.sections

/-! ## Agreement -/

section

variable {image : View} (short : image.size < UInt64.size)

include short

omit short in
/-- A byte of the front of an image is indexed in the front as it is read from the image. -/
theorem exists_byte {header : View} {size : Nat} (place : Nat)
    (sliced : image.slice 0 size = .ok header) (within : place < size) :
    ∃ b, image.byte place = .ok b ∧ (index header.bytes place : Run Error UInt8) = .of (.ok b) := by
  obtain ⟨fits, bytes⟩ := View.slice_eq_ok_iff.1 sliced
  have inImage : place < image.toList.length := by
    rw [View.length_toList]
    omega
  have found : header.bytes[place]? = some image.toList[place] := by
    rw [← Array.getElem?_toList]
    change header.toList[place]? = _
    rw [bytes, List.drop_zero, List.getElem?_take_of_lt within, List.getElem?_eq_getElem inImage]
  refine ⟨image.toList[place], View.byte_of_getElem? (List.getElem?_eq_getElem inImage), ?_⟩
  rw [index, found]
  rfl

theorem checkIdentification_eq :
    checkIdentification image = .of (Elf.checkIdentification image) := by
  unfold checkIdentification Elf.checkIdentification
  rw [slice_eq short, Run.lift_of]
  refine Run.of_bind fun header sliced => ?_
  obtain ⟨within, bytes⟩ := View.slice_eq_ok_iff.1 (lift_eq_ok_iff.1 sliced)
  have full : header.size = headerSize := View.size_of_cut within bytes
  obtain ⟨front, ranged, front_eq⟩ : ∃ front, (range header 0 (.ofNat magic.length) : Run Error _) =
      .of (.ok front) ∧ front.toList = header.toList.take magic.length :=
    exists_range _ _ (by decide) (by rw [full]; decide)
  obtain ⟨classByte, isClass, class_eq⟩ :=
    exists_byte 4 (lift_eq_ok_iff.1 sliced) (by decide)
  obtain ⟨encoding, isEncoding, encoding_eq⟩ :=
    exists_byte 5 (lift_eq_ok_iff.1 sliced) (by decide)
  simp only [ranged, class_eq, encoding_eq, isClass, isEncoding, Run.of_ok_bind, lift_ok_bind,
    front_eq]
  refine Run.ite_of (fun _ => rfl) fun _ => ?_
  refine Run.ite_of (fun _ => rfl) fun _ => ?_
  exact Run.ite_of (fun _ => rfl) fun _ => rfl

theorem content_eq (s : Section) : content image s = .of (s.content image) := by
  rw [content, Section.content_eq, slice_eq short, Run.lift_of, slice_eq short, Run.lift_of]
  refine Run.ite_of (fun _ => rfl) fun _ => ?_
  rw [View.slice_eq_ok (Nat.zero_le _)]
  simp [View.empty]
  rfl

theorem operations_follow : (operations image).Follows (Run.telling Error) image where
  checkIdentification := checkIdentification_eq short
  ofNat fits := val_of_exactly (UInt64.toNat_ofNat_of_lt' fits)
  add fits := val_of_exactly (Word.toNat_add_of_lt fits)
  mul fits := val_of_exactly (Word.toNat_mul_of_lt fits)
  word16 offset := (congrArg liftM (word16_eq short offset)).trans (Run.lift_of _)
  word32 offset := (congrArg liftM (word32_eq short offset)).trans (Run.lift_of _)
  word64 offset := (congrArg liftM (word64_eq short offset)).trans (Run.lift_of _)
  slice offset size := (congrArg liftM (slice_eq short offset size)).trans (Run.lift_of _)

/-- An image whose size is a word is indexed on words as on numbers. -/
theorem ofImage_eq : ofImage image = .of (SectionTable.ofImage image) :=
  (operations_follow short).ofImage_eq short

/-! ## Names -/

end

theorem upToNul_eq_take (bytes : List UInt8) :
    Elf.upToNul bytes = (bytes.findIdx? (· == 0)).map fun last => bytes.take last := by
  have negated : (fun b : UInt8 => !(b != 0)) = (· == 0) := by
    funext b
    simp [bne]
  unfold Elf.upToNul
  rw [List.takeWhile_eq_take_findIdx_not, negated]
  cases found : bytes.findIdx? (· == 0) with
  | none =>
    have none := List.findIdx?_eq_none_iff.1 found
    rw [if_neg]
    · rfl
    · intro mem
      cases none 0 (List.contains_iff_mem.1 mem)
  | some last =>
    obtain ⟨lt, same⟩ := List.findIdx?_eq_some_iff_findIdx_eq.1 found
    obtain ⟨b, mem, zero⟩ := List.findIdx_lt_length.1 (same ▸ lt)
    rw [if_pos, same]
    · rfl
    · rw [List.contains_iff_mem]
      exact beq_iff_eq.1 zero ▸ mem

theorem exists_upToNul {ε : Type} {v : View} (short : v.size < UInt64.size) :
    ∃ front, (upToNul v : Run ε _) = .of (.ok front) ∧
      front.map View.toList = Elf.upToNul v.toList := by
  unfold upToNul
  rw [upToNul_eq_take]
  cases found : v.toList.findIdx? (· == 0) with
  | none => exact ⟨none, rfl, rfl⟩
  | some last =>
    obtain ⟨lt, -⟩ := List.findIdx?_eq_some_iff_findIdx_eq.1 found
    rw [View.length_toList] at lt
    obtain ⟨⟨word, word_eq⟩, stored⟩ := exists_toWord (ε := ε) (n := last) (by omega)
    obtain ⟨front, cut, front_eq⟩ := exists_range (ε := ε) (v := v) 0 word (Nat.zero_le _)
      (by omega)
    refine ⟨some front, ?_, ?_⟩
    · dsimp only
      rw [stored, Run.of_ok_bind, cut]
      rfl
    · rw [Option.map_some, front_eq, word_eq]
      rfl

/-- The names have been asked for by the time the place of one of them is computed, so that this is
a word. -/
theorem name_eq {t : SectionTable} (short : t.image.size < 2 ^ 63) (s : Section) :
    name t s = .of (t.name s) := by
  have words : 2 ^ 63 + 2 ^ 32 < UInt64.size := by decide
  unfold name SectionTable.name
  cases t.names with
  | none => rfl
  | some holder =>
    dsimp only
    rw [slice_eq (by omega), Run.lift_of]
    refine Run.of_bind fun table sliced => ?_
    obtain ⟨within, bytes⟩ := View.slice_eq_ok_iff.1 (lift_eq_ok_iff.1 sliced)
    have table_size := View.size_of_cut within bytes
    have start_eq : s.nameOffset.toUInt64.toNat = s.nameOffset.toNat := s.nameOffset.toNat_toUInt64
    have start_lt := s.nameOffset.toNat_lt
    obtain ⟨⟨place, place_eq⟩, placed⟩ := exists_add (ε := Error) (a := holder.fileOffset)
      (b := s.nameOffset.toUInt64) (by omega)
    obtain ⟨⟨size, size_eq⟩, measured⟩ := length_eq (ε := Error) (v := table) (by omega)
    rw [start_eq] at place_eq
    simp only [placed, measured, Run.of_ok_bind, place_eq]
    have beyond_iff : size < s.nameOffset.toUInt64 ↔ table.toList.length < s.nameOffset.toNat := by
      rw [UInt64.lt_iff_toNat_lt, size_eq, start_eq, View.length_toList]
    by_cases beyond : size < s.nameOffset.toUInt64
    · rw [if_pos beyond, List.drop_of_length_le (Nat.le_of_lt (beyond_iff.1 beyond))]
      rfl
    · have reached := Nat.not_lt.1 (mt beyond_iff.2 beyond)
      rw [View.length_toList] at reached
      obtain ⟨tail, ranged, tail_eq⟩ := exists_range (ε := Error) (v := table)
        s.nameOffset.toUInt64 size (by omega) (by omega)
      rw [start_eq, size_eq, List.take_of_length_le (by simp)] at tail_eq
      have tail_size : tail.size ≤ table.size := by
        rw [← View.length_toList, tail_eq, List.length_drop, View.length_toList]
        omega
      obtain ⟨front, cut, front_eq⟩ := exists_upToNul (ε := Error) (v := tail) (by omega)
      rw [if_neg beyond, ranged, Run.of_ok_bind, cut, Run.of_ok_bind, ← tail_eq, ← front_eq]
      cases front with
      | none => rfl
      | some bytes => rfl

theorem find_eq {t : SectionTable} (short : t.image.size < 2 ^ 63) (wanted : String) :
    find t wanted = .of (t.find wanted) := by
  unfold find SectionTable.find SectionTable.findIn
  induction t.sections with
  | nil => rfl
  | cons s rest ih =>
    unfold SectionTable.firstNamed
    rw [name_eq short, ih]
    exact Run.of_bind fun found _ => Run.ite_of (fun _ => rfl) fun _ => rfl

end CodeSpans.Machine
