import CodeSpans.Proofs.Elf.Indexing

/-!
# Indexing in 64-bit words

`SectionTable.ofImage` adds and multiplies numbers. `Word.ofImage` is the same indexing with the
arithmetic of 64-bit words: the end of a read and the size of the table are refused where a word
cannot hold them, the places of extended numbering stop at the greatest word, and the place of an
entry wraps round. No image that fits into 64-bit places tells the two apart, by its index or by its
error (`Word.ofImage_eq`). Where the place of an entry would wrap round, the table has been refused.

The words are reached through `Operations`, which may act in any monad. The indexing over operations
that tell what numbers say, where no result leaves the words, tells what the indexing over numbers
says (`Operations.Follows.ofImage_eq`).
-/

namespace CodeSpans.Elf

namespace Word

/-! ## Sums and products -/

/-- The sum, or the greatest word. -/
def addSaturating (a b : UInt64) : UInt64 :=
  if a.toNat + b.toNat < UInt64.size then a + b else .ofNat maxWord

def addChecked? (a b : UInt64) : Option UInt64 :=
  if a.toNat + b.toNat < UInt64.size then some (a + b) else none

def mulChecked? (a b : UInt64) : Option UInt64 :=
  if a.toNat * b.toNat < UInt64.size then some (a * b) else none

theorem toNat_add_of_lt {a b : UInt64} (h : a.toNat + b.toNat < UInt64.size) :
    (a + b).toNat = a.toNat + b.toNat := by
  rw [UInt64.toNat_add]
  exact Nat.mod_eq_of_lt h

theorem toNat_mul_of_lt {a b : UInt64} (h : a.toNat * b.toNat < UInt64.size) :
    (a * b).toNat = a.toNat * b.toNat := by
  rw [UInt64.toNat_mul]
  exact Nat.mod_eq_of_lt h

/-! ## Reads -/

def slice (v : View) (offset length : UInt64) : Except Overrun View :=
  match addChecked? offset length with
  | none => .error ⟨offset.toNat, length.toNat, v.size⟩
  | some last =>
    if .ofNat v.size < last then .error ⟨offset.toNat, length.toNat, v.size⟩
    else .ok ⟨v.bytes.extract offset.toNat last.toNat⟩

def word (v : View) (width offset : UInt64) : Except Overrun Nat :=
  (slice v offset width).map fun s => LittleEndian.value s.toList

def word16 (v : View) (offset : UInt64) : Except Overrun UInt16 :=
  (word v 2 offset).map Nat.toUInt16

def word32 (v : View) (offset : UInt64) : Except Overrun UInt32 :=
  (word v 4 offset).map Nat.toUInt32

def word64 (v : View) (offset : UInt64) : Except Overrun UInt64 :=
  (word v 8 offset).map Nat.toUInt64

/-! ## Operations -/

/-- What the indexing does on 64-bit words, in a monad. -/
structure Operations (M : Type → Type) where
  checkIdentification : M Unit
  ofNat (n : Nat) : M UInt64
  add (a b : UInt64) : M UInt64
  mul (a b : UInt64) : M UInt64
  word16 (offset : UInt64) : M UInt16
  word32 (offset : UInt64) : M UInt32
  word64 (offset : UInt64) : M UInt64
  slice (offset size : UInt64) : M View

section

variable {M : Type → Type} [Monad M] [MonadExcept Error M]

/-- A table whose size no word holds is refused. -/
def Operations.checkTable (ops : Operations M) (image : View) (h : Header) : M Unit := do
  match mulChecked? h.entryCount h.entrySize.toUInt64 with
  | none => throw (.truncated ⟨h.tableOffset.toNat, maxWord, image.size⟩)
  | some size => let _ ← ops.slice h.tableOffset size

/-- Reads at places that are words. Those of extended numbering stop at the greatest word. -/
def Operations.reads (ops : Operations M) (image : View) : Reads M UInt64 where
  checkIdentification := ops.checkIdentification
  word16 offset := ops.word16 (.ofNat offset)
  word64 offset := ops.word64 (.ofNat offset)
  first32 tableOffset more := ops.word32 (addSaturating tableOffset (.ofNat more))
  first64 tableOffset more := ops.word64 (addSaturating tableOffset (.ofNat more))
  checkTable h := ops.checkTable image h
  entry h index := do
    let before ← ops.mul (← ops.ofNat index) h.entrySize.toUInt64
    ops.add h.tableOffset before
  field32 entry more := do ops.word32 (← ops.add entry (.ofNat more))
  field64 entry more := do ops.word64 (← ops.add entry (.ofNat more))
  slice offset size := ops.slice offset size

end

/-- Operations of which sums and products wrap round. -/
def wrapping (image : View) : Operations (Except Error) where
  checkIdentification := Elf.checkIdentification image
  ofNat n := return .ofNat n
  add a b := return a + b
  mul a b := return a * b
  word16 offset := word16 image offset
  word32 offset := word32 image offset
  word64 offset := word64 image offset
  slice offset size := slice image offset size

def ofImage (image : View) : Except Error SectionTable :=
  SectionTable.ofImageBy ((wrapping image).reads image) image

/-! ## Agreement -/

section

variable {image : View} (short : image.size < UInt64.size)

include short

theorem slice_eq (offset length : UInt64) :
    slice image offset length = image.slice offset.toNat length.toNat := by
  unfold slice addChecked?
  by_cases fits : offset.toNat + length.toNat < UInt64.size
  · rw [if_pos fits]
    have size_eq : (UInt64.ofNat image.size).toNat = image.size := UInt64.toNat_ofNat_of_lt short
    have last_eq := toNat_add_of_lt fits
    have beyond_iff : UInt64.ofNat image.size < offset + length ↔
        image.size < offset.toNat + length.toNat := by
      rw [UInt64.lt_iff_toNat_lt, size_eq, last_eq]
    change (if _ then _ else _) = _
    by_cases within : offset.toNat + length.toNat ≤ image.size
    · rw [if_neg (mt beyond_iff.1 (Nat.not_lt.2 within)), View.slice_eq_ok within, last_eq]
    · have beyond := Nat.not_le.1 within
      rw [if_pos (beyond_iff.2 beyond), View.slice_eq_error beyond]
  · rw [if_neg fits, View.slice_eq_error]
    exact Nat.lt_of_lt_of_le short (Nat.not_lt.1 fits)

theorem word_eq (width offset : UInt64) :
    word image width offset = image.word width.toNat offset.toNat := by
  unfold word View.word
  rw [slice_eq short]

theorem word16_eq (offset : UInt64) : word16 image offset = image.word16 offset.toNat :=
  congrArg (Except.map Nat.toUInt16) (word_eq short 2 offset)

theorem word32_eq (offset : UInt64) : word32 image offset = image.word32 offset.toNat :=
  congrArg (Except.map Nat.toUInt32) (word_eq short 4 offset)

theorem word64_eq (offset : UInt64) : word64 image offset = image.word64 offset.toNat :=
  congrArg (Except.map Nat.toUInt64) (word_eq short 8 offset)

omit short in
theorem located_of_le {α : Type} {offset length : Nat} (hoffset : offset ≤ maxWord)
    (hlength : length ≤ maxWord) :
    Header.located (.error ⟨offset, length, image.size⟩ : Except Overrun α) =
      .error (.truncated ⟨offset, length, image.size⟩) := by
  unfold Header.located Overrun.capped
  rw [Except.mapError, Nat.min_eq_left hoffset, Nat.min_eq_left hlength]

/-- A word at a place that stops at the greatest word is reported as at the exact place. -/
theorem located_word_eq {α : Type} (toWord : Nat → α) {width : Nat} (positive : 0 < width)
    (least : width ≤ maxWord) (offset more : UInt64) :
    Header.located ((image.word width (offset.toNat + more.toNat)).map toWord) =
      liftM ((image.word width (addSaturating offset more).toNat).map toWord) := by
  unfold addSaturating
  by_cases fits : offset.toNat + more.toNat < UInt64.size
  · rw [if_pos fits, toNat_add_of_lt fits]
    by_cases within : offset.toNat + more.toNat + width ≤ image.size
    · rw [View.word_eq_ok within]
      rfl
    · rw [View.word_eq_error (Nat.not_le.1 within)]
      exact located_of_le (Nat.le_of_lt_succ fits) least
  · have greatest : (UInt64.ofNat maxWord).toNat = maxWord := rfl
    have size_eq : maxWord + 1 = UInt64.size := rfl
    have beyond : maxWord < offset.toNat + more.toNat := by omega
    rw [if_neg fits, greatest, View.word_eq_error (by omega), View.word_eq_error (by omega)]
    unfold Header.located Overrun.capped
    rw [Except.map, Except.mapError, Nat.min_eq_right (Nat.le_of_lt beyond), Nat.min_eq_left least]
    rfl

end

/-- Operations that tell what numbers say, wherever the exact result is a word. -/
structure Operations.Follows {M : Type → Type} [Monad M] [MonadExcept Error M]
    (ops : Operations M) (told : Answer.Telling Error M) (image : View) : Prop where
  checkIdentification : ops.checkIdentification = told.of (Elf.checkIdentification image)
  ofNat {n : Nat} : n < UInt64.size → ops.ofNat n = told.of (.ok (.ofNat n))
  add {a b : UInt64} : a.toNat + b.toNat < UInt64.size → ops.add a b = told.of (.ok (a + b))
  mul {a b : UInt64} : a.toNat * b.toNat < UInt64.size → ops.mul a b = told.of (.ok (a * b))
  word16 (offset : UInt64) : ops.word16 offset = told.of (liftM (image.word16 offset.toNat))
  word32 (offset : UInt64) : ops.word32 offset = told.of (liftM (image.word32 offset.toNat))
  word64 (offset : UInt64) : ops.word64 offset = told.of (liftM (image.word64 offset.toNat))
  slice (offset size : UInt64) :
    ops.slice offset size = told.of (liftM (image.slice offset.toNat size.toNat))

namespace Operations.Follows

variable {M : Type → Type} [Monad M] [MonadExcept Error M] {ops : Operations M}
  {told : Answer.Telling Error M} {image : View} (follows : ops.Follows told image)

include follows

theorem header16_eq {offset : Nat} (lt : offset < UInt64.size) :
    (ops.reads image).word16 offset = told.of ((Reads.exact image).word16 offset) := by
  change ops.word16 (.ofNat offset) = _
  rw [follows.word16, UInt64.toNat_ofNat_of_lt' lt]
  rfl

theorem header64_eq {offset : Nat} (lt : offset < UInt64.size) :
    (ops.reads image).word64 offset = told.of ((Reads.exact image).word64 offset) := by
  change ops.word64 (.ofNat offset) = _
  rw [follows.word64, UInt64.toNat_ofNat_of_lt' lt]
  rfl

theorem contentBy_eq (s : Section) :
    s.contentBy (ops.reads image) = told.of (s.content image) :=
  told.ite (fun _ => follows.slice s.fileOffset s.size) fun _ => told.pure_eq _

/-- The place of a field, behind that of its entry. -/
theorem exists_place {entry : UInt64} {more : Nat} (fits : entry.toNat + more < UInt64.size) :
    ∃ place, ops.add entry (.ofNat more) = told.of (.ok place) ∧
      place.toNat = entry.toNat + more := by
  have more_eq : (UInt64.ofNat more).toNat = more := UInt64.toNat_ofNat_of_lt' (by omega)
  have sum : entry.toNat + (UInt64.ofNat more).toNat < UInt64.size := by rwa [more_eq]
  exact ⟨_, follows.add sum, by rw [toNat_add_of_lt sum, more_eq]⟩

theorem field32_eq {entry : UInt64} {more : Nat} (fits : entry.toNat + more < UInt64.size) :
    (ops.reads image).field32 entry more =
      told.of ((Reads.exact image).field32 entry.toNat more) := by
  obtain ⟨place, added, place_eq⟩ := follows.exists_place fits
  change ops.add entry (.ofNat more) >>= ops.word32 = _
  rw [added, told.ok_bind, follows.word32, place_eq]
  rfl

theorem field64_eq {entry : UInt64} {more : Nat} (fits : entry.toNat + more < UInt64.size) :
    (ops.reads image).field64 entry more =
      told.of ((Reads.exact image).field64 entry.toNat more) := by
  obtain ⟨place, added, place_eq⟩ := follows.exists_place fits
  change ops.add entry (.ofNat more) >>= ops.word64 = _
  rw [added, told.ok_bind, follows.word64, place_eq]
  rfl

theorem exists_entry {h : Header} {index : Nat} (lt : index < UInt64.size)
    (fits : h.entryOffset index < UInt64.size) :
    ∃ entry, (ops.reads image).entry h index = told.of (.ok entry) ∧
      entry.toNat = h.entryOffset index := by
  have index_eq : (UInt64.ofNat index).toNat = index := UInt64.toNat_ofNat_of_lt lt
  have product : (UInt64.ofNat index).toNat * h.entrySize.toUInt64.toNat =
      index * h.entrySize.toNat := by
    rw [index_eq, UInt16.toNat_toUInt64]
  have exact : h.entryOffset index = h.tableOffset.toNat + index * h.entrySize.toNat := rfl
  have product_eq := toNat_mul_of_lt (a := .ofNat index) (b := h.entrySize.toUInt64) (by omega)
  refine ⟨h.tableOffset + .ofNat index * h.entrySize.toUInt64, ?_, ?_⟩
  · change ops.ofNat index >>= (fun word =>
      ops.mul word h.entrySize.toUInt64 >>= fun before => ops.add h.tableOffset before) = _
    rw [follows.ofNat lt, told.ok_bind, follows.mul (by omega), told.ok_bind,
      follows.add (by omega)]
  · rw [toNat_add_of_lt (by omega), product_eq, product, exact]

/-- The place of an entry that is in the image is a word, and so are those of its fields. -/
theorem readSection_eq {h : Header} {index : Nat} (short : image.size < UInt64.size)
    (lt : index < UInt64.size) (within : h.entryOffset index + 0x28 ≤ image.size) :
    Section.readBy (ops.reads image) h index = told.of (Section.read image h index) := by
  obtain ⟨entry, placed, entry_eq⟩ := follows.exists_entry (h := h) lt (by omega)
  have field32 : ∀ more ≤ 0x20, (ops.reads image).field32 entry more =
      told.of ((Reads.exact image).field32 (h.entryOffset index) more) := fun more small =>
    entry_eq ▸ follows.field32_eq (by omega)
  have field64 : ∀ more ≤ 0x20, (ops.reads image).field64 entry more =
      told.of ((Reads.exact image).field64 (h.entryOffset index) more) := fun more small =>
    entry_eq ▸ follows.field64_eq (by omega)
  unfold Section.read Section.readBy
  rw [placed, told.ok_bind, field32 0x04 (by decide), field64 0x08 (by decide),
    field32 0x00 (by decide), field64 0x18 (by decide), field64 0x20 (by decide)]
  refine told.bind fun kind _ => ?_
  refine told.bind fun flags _ => ?_
  refine told.bind fun name _ => ?_
  refine told.bind fun offset _ => ?_
  refine told.bind fun size _ => ?_
  dsimp only
  rw [follows.contentBy_eq]
  exact told.bind fun _ _ => told.pure_eq _

section

variable (short : image.size < UInt64.size)

include short

theorem first32_eq (tableOffset : UInt64) {more : Nat} (lt : more < UInt64.size) :
    (ops.reads image).first32 tableOffset more =
      told.of ((Reads.exact image).first32 tableOffset more) := by
  have located := located_word_eq short Nat.toUInt32 (by decide : 0 < 4) (by decide) tableOffset
    (.ofNat more)
  rw [UInt64.toNat_ofNat_of_lt' lt] at located
  exact (follows.word32 _).trans (congrArg told.of located.symm)

theorem first64_eq (tableOffset : UInt64) {more : Nat} (lt : more < UInt64.size) :
    (ops.reads image).first64 tableOffset more =
      told.of ((Reads.exact image).first64 tableOffset more) := by
  have located := located_word_eq short Nat.toUInt64 (by decide : 0 < 8) (by decide) tableOffset
    (.ofNat more)
  rw [UInt64.toNat_ofNat_of_lt' lt] at located
  exact (follows.word64 _).trans (congrArg told.of located.symm)

theorem checkTable_eq (h : Header) :
    (ops.reads image).checkTable h = told.of (h.checkTable image) := by
  have product : h.entryCount.toNat * h.entrySize.toUInt64.toNat = h.tableSize := by
    rw [UInt16.toNat_toUInt64]
    rfl
  have offset_le : h.tableOffset.toNat ≤ maxWord := Nat.le_of_lt_succ h.tableOffset.toNat_lt
  change ops.checkTable image h = _
  unfold Operations.checkTable Header.checkTable mulChecked?
  rw [product]
  by_cases fits : h.tableSize < UInt64.size
  · rw [if_pos fits]
    dsimp only
    rw [follows.slice, toNat_mul_of_lt (by rwa [product]), product]
    by_cases within : h.tableOffset.toNat + h.tableSize ≤ image.size
    · rw [View.slice_eq_ok within]
      exact told.bind fun _ _ => told.pure_eq _
    · rw [View.slice_eq_error (Nat.not_le.1 within),
        located_of_le offset_le (Nat.le_of_lt_succ fits)]
      exact told.bind fun _ _ => told.pure_eq _
  · have size_eq : maxWord + 1 = UInt64.size := rfl
    have beyond : maxWord < h.tableSize := by omega
    rw [if_neg fits, View.slice_eq_error (by omega)]
    unfold Header.located Overrun.capped
    rw [Except.mapError, Nat.min_eq_left offset_le, Nat.min_eq_right (Nat.le_of_lt beyond)]
    exact told.throw_eq _

theorem readHeader_eq : Header.readBy (ops.reads image) = told.of (Header.read image) := by
  unfold Header.read Header.readBy
  rw [follows.header64_eq (by decide), follows.header16_eq (by decide)]
  refine told.bind fun tableOffset _ => ?_
  refine told.bind fun entrySize _ => ?_
  rw [follows.header16_eq (by decide)]
  refine told.bind fun count _ => ?_
  rw [follows.header16_eq (by decide)]
  refine told.bind fun index _ => ?_
  rw [follows.header16_eq (by decide)]
  refine told.ite (fun _ => told.bind fun machine _ => told.pure_eq _) fun _ => ?_
  refine told.refuse fun _ => ?_
  have counted : Header.readEntryCount (ops.reads image) tableOffset count =
      told.of (Header.readEntryCount (.exact image) tableOffset count) :=
    told.ite (fun _ => follows.first64_eq short tableOffset (by decide)) fun _ => told.pure_eq _
  have named : Header.readNamesIndex (ops.reads image) tableOffset index =
      told.of (Header.readNamesIndex (.exact image) tableOffset index) :=
    told.ite (fun _ => follows.first32_eq short tableOffset (by decide)) fun _ => told.pure_eq _
  rw [counted, named]
  refine told.bind fun entryCount _ => ?_
  refine told.bind fun namesIndex _ => ?_
  refine told.bind fun machine _ => ?_
  dsimp only
  rw [follows.checkTable_eq short]
  refine told.bind fun _ _ => ?_
  exact told.refuse fun _ => told.pure_eq _

/-- Where the place of an entry is read, the table is in the image. -/
theorem ofImage_eq [LawfulMonad M] :
    SectionTable.ofImageBy (ops.reads image) image = told.of (SectionTable.ofImage image) := by
  unfold SectionTable.ofImage SectionTable.ofImageBy
  have identification : (ops.reads image).checkIdentification =
      told.of (Elf.checkIdentification image) := follows.checkIdentification
  rw [identification, follows.readHeader_eq short]
  refine told.bind fun ⟨⟩ identified => ?_
  refine told.bind fun h read => ?_
  have identified := checkIdentification_eq_ok_iff.1 identified
  obtain ⟨table, d⟩ := (Header.read_eq_ok_iff identified.full).1 read
  have located : Stored.Located image := ⟨identified, table⟩
  have entries : (List.range h.entryCount.toNat).mapM (Section.readBy (ops.reads image) h) =
      told.of ((List.range h.entryCount.toNat).mapM (Section.read image h)) := by
    refine told.mapM fun index mem => ?_
    have lt := List.mem_range.1 mem
    refine follows.readSection_eq short (Nat.lt_trans lt h.entryCount.toNat_lt) ?_
    rw [d.entryOffset_eq]
    exact located.entry_within (d.entryCount_eq ▸ lt)
  rw [entries]
  exact told.bind fun _ _ => told.pure_eq _

end

end Operations.Follows

theorem wrapping_follows {image : View} (short : image.size < UInt64.size) :
    (wrapping image).Follows (.itself Error) image where
  checkIdentification := rfl
  ofNat _ := rfl
  add _ := rfl
  mul _ := rfl
  word16 offset := congrArg liftM (word16_eq short offset)
  word32 offset := congrArg liftM (word32_eq short offset)
  word64 offset := congrArg liftM (word64_eq short offset)
  slice offset size := congrArg liftM (slice_eq short offset size)

/-- Words and numbers agree: no image that fits into 64-bit places tells the arithmetic of words
from that of numbers. -/
theorem ofImage_eq {image : View} (short : image.size < UInt64.size) :
    ofImage image = SectionTable.ofImage image :=
  (wrapping_follows short).ofImage_eq short

end Word

end CodeSpans.Elf
