import CodeSpans.Bytes.LittleEndian
import CodeSpans.Text.Hex

/-!
# Views of bytes

A `View` is a run of bytes that is only read. Every read names an offset and a
length, both counted from the start of the view, and either lies inside or
comes back as an `Overrun` that repeats what was asked for. The end of a read
is the exact sum of offset and length, so no pair of 64-bit words can wrap
round into range.
-/

namespace CodeSpans

/-- A read that would have left its view. -/
structure Overrun where
  offset : Nat
  length : Nat
  available : Nat
deriving DecidableEq, Repr, Inhabited

def Overrun.message (o : Overrun) : String :=
  s!"read of {o.length} bytes at offset {Hex.literal o.offset} "
    ++ s!"exceeds buffer of {o.available} bytes"

def maxWord : Nat := UInt64.size - 1

/-- The overrun as 64-bit words report it: a number beyond the greatest word shows as that. -/
def Overrun.capped (o : Overrun) : Overrun :=
  { o with offset := min o.offset maxWord, length := min o.length maxWord }

/-- A run of bytes that is only read. -/
structure View where
  /-- The bytes, first to last. -/
  bytes : Array UInt8
deriving DecidableEq, Repr, Inhabited

namespace View

def empty : View := ⟨#[]⟩

/-- The view of the bytes of a list. -/
def ofList (bytes : List UInt8) : View := ⟨bytes.toArray⟩

def toList (v : View) : List UInt8 := v.bytes.toList

def size (v : View) : Nat := v.bytes.size

/-- Whether there is no byte at all. -/
def isEmpty (v : View) : Bool := v.bytes.isEmpty

/-- The `length` bytes from `offset` on. -/
def slice (v : View) (offset length : Nat) : Except Overrun View :=
  if offset + length ≤ v.size then
    .ok ⟨v.bytes.extract offset (offset + length)⟩
  else
    .error ⟨offset, length, v.size⟩

/-- All bytes from `offset` on; an overrun reports the length zero. -/
def tail (v : View) (offset : Nat) : Except Overrun View :=
  if offset ≤ v.size then
    .ok ⟨v.bytes.extract offset v.size⟩
  else
    .error ⟨offset, 0, v.size⟩

/-- The little-endian number in the `width` bytes from `offset` on. -/
def word (v : View) (width offset : Nat) : Except Overrun Nat :=
  (v.slice offset width).map fun s => LittleEndian.value s.toList

def byte (v : View) (offset : Nat) : Except Overrun UInt8 :=
  (v.word 1 offset).map Nat.toUInt8

def word16 (v : View) (offset : Nat) : Except Overrun UInt16 :=
  (v.word 2 offset).map Nat.toUInt16

def word32 (v : View) (offset : Nat) : Except Overrun UInt32 :=
  (v.word 4 offset).map Nat.toUInt32

def word64 (v : View) (offset : Nat) : Except Overrun UInt64 :=
  (v.word 8 offset).map Nat.toUInt64

@[simp] theorem toList_ofList (bytes : List UInt8) : (ofList bytes).toList = bytes := rfl

@[simp] theorem length_toList (v : View) : v.toList.length = v.size := Array.length_toList

theorem slice_eq_ok {v : View} {offset length : Nat} (h : offset + length ≤ v.size) :
    v.slice offset length = .ok ⟨v.bytes.extract offset (offset + length)⟩ :=
  if_pos h

theorem slice_eq_error {v : View} {offset length : Nat} (h : v.size < offset + length) :
    v.slice offset length = .error ⟨offset, length, v.size⟩ :=
  if_neg (by omega)

end View

end CodeSpans
