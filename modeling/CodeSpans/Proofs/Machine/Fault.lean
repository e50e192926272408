import CodeSpans.Proofs.Elf.WordArithmetic

/-!
# Runs that may fault

The rest of the library counts in numbers and reads what is not there as nothing. A `Run` does
neither: it counts in 64-bit words, and it ends in a `Fault` as soon as the result of an operation
is not the exact one, or an index or a bound of a slice lies outside of what it is taken of. Faults
are apart from errors; no error handler sees them.

`Run.of x` is the run that does not fault and has the answer or error `x`. That a run on words is
`Run.of` of the same work on numbers says both that it never faults and that its arithmetic is
exact. Reads from a view are such runs (`word32_eq` and the like), as long as its size is a word.
What memory is asked for is left out.
-/

namespace CodeSpans.Machine

/-- What words and slices cannot do. -/
inductive Fault where
  /-- The exact result is not that of the words. -/
  | inexact
  | outOfRange
deriving DecidableEq, Repr, Inhabited

/-- Work on words: an answer or an error, or else a fault. -/
abbrev Run (ε α : Type) := ExceptT ε (Except Fault) α

section

variable {ε ε' α β : Type}

/-- The run without a fault. -/
def Run.of (x : Except ε α) : Run ε α := ExceptT.mk (.ok x)

def fault (f : Fault) : Run ε α := ExceptT.mk (.error f)

/-- What a run comes to, as an answer. -/
def attempt (run : Run ε α) : Run ε' (Except ε α) := ExceptT.mk (run.run.map .ok)

/-- A read that leaves the image is an error of the image. -/
instance : MonadLift (Run Overrun) (Run Elf.Error) where
  monadLift := ExceptT.adapt .truncated

/-! ## Sequencing -/

@[simp] theorem Run.pure_eq (a : α) : (pure a : Run ε α) = .of (.ok a) := rfl

@[simp] theorem Run.throw_eq (e : ε) : (throw e : Run ε α) = .of (.error e) := rfl

@[simp] theorem Run.of_ok_bind (a : α) (f : α → Run ε β) : Run.of (.ok a) >>= f = f a := rfl

@[simp] theorem Run.of_error_bind (e : ε) (f : α → Run ε β) :
    Run.of (.error e) >>= f = .of (.error e) := rfl

@[simp] theorem Run.lift_of (x : Except Overrun α) :
    (liftM (Run.of x) : Run Elf.Error α) = .of (liftM x) := by
  cases x with
  | error e => rfl
  | ok a => rfl

@[simp] theorem attempt_of (x : Except ε α) : (attempt (Run.of x) : Run ε' _) = .of (.ok x) := rfl

/-- Runs without a fault tell answers. -/
def Run.telling (ε : Type) : Answer.Telling ε (Run ε) where
  of := Run.of
  pure_eq _ := rfl
  throw_eq _ := rfl
  ok_bind _ _ := rfl
  error_bind _ _ := rfl

/-- Two runs without a fault, of which the second is only looked at where it is come to. -/
theorem Run.of_bind {x : Except ε α} {f : α → Run ε β} {g : α → Except ε β}
    (behind : ∀ a, x = .ok a → f a = .of (g a)) : Run.of x >>= f = .of (x >>= g) :=
  (Run.telling ε).bind behind

theorem Run.of_map {x : Except ε α} {f : α → Run ε β} {g : α → β}
    (behind : ∀ a, x = .ok a → f a = .of (.ok (g a))) : Run.of x >>= f = .of (x.map g) := by
  cases x with
  | error e => rfl
  | ok a => exact behind a rfl

theorem Run.map_of (f : α → β) (x : Except ε α) : f <$> Run.of x = .of (x.map f) := by
  cases x with
  | error e => rfl
  | ok a => rfl

theorem Run.ite_of {c : Prop} [Decidable c] {f g : Run ε α} {x y : Except ε α}
    (holds : c → f = .of x) (fails : ¬c → g = .of y) :
    (if c then f else g) = .of (if c then x else y) :=
  (Run.telling ε).ite holds fails

/-! ## Words -/

/-- The result of an operation, if it is what it must be. -/
def exactly (P : α → Prop) [DecidablePred P] (result : α) : Run ε {a // P a} :=
  if h : P result then pure ⟨result, h⟩ else fault .inexact

/-- A number as a word. -/
def toWord (n : Nat) : Run ε {w : UInt64 // w.toNat = n} :=
  exactly _ (.ofNat n)

def add (a b : UInt64) : Run ε {w : UInt64 // w.toNat = a.toNat + b.toNat} :=
  exactly _ (a + b)

def mul (a b : UInt64) : Run ε {w : UInt64 // w.toNat = a.toNat * b.toNat} :=
  exactly _ (a * b)

def sub (a b : UInt64) : Run ε {w : UInt64 // w.toNat + b.toNat = a.toNat} :=
  exactly _ (a - b)

/-- A word as a byte. -/
def toByte (a : UInt64) : Run ε {b : UInt8 // b.toNat = a.toNat} :=
  exactly _ a.toUInt8

section

variable {P : α → Prop} [DecidablePred P] {a : α}

theorem exists_exactly (h : P a) : ∃ w, (exactly P a : Run ε _) = .of (.ok w) :=
  ⟨⟨a, h⟩, dif_pos h⟩

theorem val_of_exactly (h : P a) : (do return (← exactly P a).val : Run ε α) = .of (.ok a) := by
  unfold exactly
  rw [dif_pos h]
  rfl

end

theorem exists_toWord {n : Nat} (fits : n < UInt64.size) :
    ∃ w, (toWord n : Run ε _) = .of (.ok w) := by
  apply exists_exactly
  exact UInt64.toNat_ofNat_of_lt fits

section

variable {a b : UInt64}

theorem exists_add (fits : a.toNat + b.toNat < UInt64.size) :
    ∃ w, (add a b : Run ε _) = .of (.ok w) := by
  apply exists_exactly
  exact Elf.Word.toNat_add_of_lt fits

theorem exists_sub (fits : b.toNat ≤ a.toNat) : ∃ w, (sub a b : Run ε _) = .of (.ok w) := by
  apply exists_exactly
  rw [UInt64.toNat_sub_of_le _ _ (UInt64.le_iff_toNat_le.2 fits)]
  exact Nat.sub_add_cancel fits

example : (add (.ofNat maxWord) 1 : Run Elf.Error _) = fault .inexact := rfl

example : (sub 1 2 : Run Elf.Error _) = fault .inexact := rfl

theorem exists_toByte (fits : a.toNat < UInt8.size) : ∃ w, (toByte a : Run ε _) = .of (.ok w) := by
  apply exists_exactly
  rw [UInt64.toNat_toUInt8]
  exact Nat.mod_eq_of_lt fits

end

/-! ## Arrays -/

/-- The item of an array at a place. -/
def index (items : Array α) (place : Nat) : Run ε α :=
  match items[place]? with
  | some item => pure item
  | none => fault .outOfRange

/-- The answers of a function for all bytes, in order of the bytes. -/
def byteTable (f : UInt8 → α) : Array α :=
  Array.ofFn fun i : Fin UInt8.size => f (.ofNat i)

theorem index_eq {items : Array α} {place : Nat} (within : place < items.size) :
    (index items place : Run ε α) = .of (.ok items[place]) := by
  unfold index
  rw [Array.getElem?_eq_getElem within]
  rfl

/-- A table of all bytes has an item for each byte. -/
@[simp] theorem index_byteTable (f : UInt8 → α) (b : UInt8) :
    (index (byteTable f) b.toNat : Run ε α) = .of (.ok (f b)) := by
  have within : b.toNat < (byteTable f).size := by
    unfold byteTable
    rw [Array.size_ofFn]
    exact b.toNat_lt
  rw [index_eq within]
  simp [byteTable]

end

/-! ## Views -/

section

variable {ε : Type}

def length (v : View) : Run ε {w : UInt64 // w.toNat = v.size} :=
  toWord v.size

/-- The bytes of a view between two offsets. -/
def range (v : View) (first last : UInt64) : Run ε View :=
  if first ≤ last ∧ last.toNat ≤ v.size then
    pure ⟨v.bytes.extract first.toNat last.toNat⟩
  else
    fault .outOfRange

/-- The bytes asked for, once they are known to be there. -/
def slice (v : View) (offset count : UInt64) : Run Overrun View := do
  let size ← length v
  let overrun : Overrun := ⟨offset.toNat, count.toNat, size.val.toNat⟩
  match Elf.Word.addChecked? offset count with
  | none => throw overrun
  | some last => if size < last then throw overrun else range v offset last

/-- The little-endian number in the first bytes of a view. -/
def littleEndianIn (width : Nat) (v : View) : Run ε Nat :=
  if width ≤ v.size then pure (LittleEndian.value (v.toList.take width)) else fault .outOfRange

def number (v : View) (width offset : UInt64) : Run Overrun Nat := do
  littleEndianIn width.toNat (← slice v offset width)

def byte (v : View) (offset : UInt64) : Run Overrun UInt8 := do
  index (← slice v offset 1).bytes 0

def word16 (v : View) (offset : UInt64) : Run Overrun UInt16 :=
  Nat.toUInt16 <$> number v 2 offset

def word32 (v : View) (offset : UInt64) : Run Overrun UInt32 :=
  Nat.toUInt32 <$> number v 4 offset

def word64 (v : View) (offset : UInt64) : Run Overrun UInt64 :=
  Nat.toUInt64 <$> number v 8 offset

theorem range_eq {v : View} {first last : UInt64} (ordered : first.toNat ≤ last.toNat)
    (within : last.toNat ≤ v.size) :
    (range v first last : Run ε View) = .of (.ok ⟨v.bytes.extract first.toNat last.toNat⟩) :=
  if_pos ⟨UInt64.le_iff_toNat_le.2 ordered, within⟩

theorem exists_range {v : View} (first last : UInt64) (ordered : first.toNat ≤ last.toNat)
    (within : last.toNat ≤ v.size) :
    ∃ w, (range v first last : Run ε View) = .of (.ok w) ∧
      w.toList = (v.toList.drop first.toNat).take (last.toNat - first.toNat) := by
  refine ⟨_, range_eq ordered within, ?_⟩
  unfold View.toList
  rw [Array.toList_extract, List.extract_eq_take_drop]

example : (range ⟨#[0x90, 0xc3]⟩ 1 3 : Run Elf.Error _) = fault .outOfRange := rfl

section

variable {v : View} (short : v.size < UInt64.size)

include short

theorem length_eq : ∃ w, (length v : Run ε _) = .of (.ok w) :=
  exists_toWord short

theorem slice_eq (offset count : UInt64) :
    slice v offset count = .of (v.slice offset.toNat count.toNat) := by
  obtain ⟨⟨size, sizeEq⟩, measured⟩ := length_eq (ε := Overrun) short
  unfold slice Elf.Word.addChecked?
  rw [measured, Run.of_ok_bind]
  by_cases fits : offset.toNat + count.toNat < UInt64.size
  · have lastEq := Elf.Word.toNat_add_of_lt fits
    simp only [if_pos fits, UInt64.lt_iff_toNat_lt, sizeEq, lastEq]
    by_cases within : offset.toNat + count.toNat ≤ v.size
    · rw [if_neg (Nat.not_lt.2 within), View.slice_eq_ok within,
        range_eq (by omega) (by omega), lastEq]
    · rw [if_pos (Nat.not_le.1 within), View.slice_eq_error (Nat.not_le.1 within)]
      rfl
  · simp only [if_neg fits]
    rw [View.slice_eq_error (by omega), sizeEq]
    rfl

/-- What is sliced has the bytes that a word takes. -/
theorem number_eq (width offset : UInt64) :
    number v width offset = .of (v.word width.toNat offset.toNat) := by
  unfold number
  rw [slice_eq short]
  refine Run.of_map fun w sliced => ?_
  have full := View.size_of_slice sliced
  unfold littleEndianIn
  rw [if_pos (Nat.le_of_eq full.symm), ← full, ← View.length_toList, List.take_length]
  rfl

theorem byte_eq (offset : UInt64) : byte v offset = .of (v.byte offset.toNat) := by
  unfold byte View.byte View.word
  rw [slice_eq short, show (1 : UInt64).toNat = 1 from rfl]
  cases sliced : v.slice offset.toNat 1 with
  | error overrun => rfl
  | ok w =>
    have one : w.toList.length = 1 := by
      rw [View.length_toList]
      exact View.size_of_slice sliced
    obtain ⟨b, same⟩ := List.length_eq_one_iff.1 one
    have first : w.bytes[0]? = some b := by
      rw [← Array.getElem?_toList]
      exact congrArg (·[0]?) same
    rw [Run.of_ok_bind, index, first]
    simp [Except.map, same, LittleEndian.value]

theorem word16_eq (offset : UInt64) : word16 v offset = .of (v.word16 offset.toNat) := by
  unfold word16
  rw [number_eq short, Run.map_of]
  rfl

theorem word32_eq (offset : UInt64) : word32 v offset = .of (v.word32 offset.toNat) := by
  unfold word32
  rw [number_eq short, Run.map_of]
  rfl

theorem word64_eq (offset : UInt64) : word64 v offset = .of (v.word64 offset.toNat) := by
  unfold word64
  rw [number_eq short, Run.map_of]
  rfl

end

end

end CodeSpans.Machine
