import CodeSpans.X86.Rejection

/-!
# Reading an instruction byte by byte

What an instruction is read with is a monad that takes bytes (`TakesBytes`). One
such is a `Reader`: it takes bytes off the front of a window of code and counts
what it has taken. It cannot look behind the window and does not know where the
window stands, so what it reads depends on the window's bytes alone. It ends
early with a `Halt`: either the bytes break a rule, or the encoding goes on for
more bytes than the window holds.
-/

namespace CodeSpans.X86

/-- A monad in which the bytes of an instruction are taken one after the other. -/
class TakesBytes (M : Type → Type) where
  /-- Ends because a rule is broken. -/
  refuse {α : Type} (reason : Rejection) : M α
  /-- The next byte, which is not taken. -/
  peek : M UInt8
  take : M UInt8
  /-- Takes `count` bytes, whatever they are. -/
  skip (count : Nat) : M Unit
  /-- How many bytes have been taken. -/
  consumed : M UInt8
  /-- What a table says of a byte. -/
  lookup {α : Type} (table : UInt8 → α) (b : UInt8) : M α

/-- Why a reader ended early. -/
inductive Halt where
  /-- The bytes read break a rule. -/
  | broken (reason : Rejection)
  /-- The encoding has `length` bytes or more in all, and the window has fewer. -/
  | wants (length : Nat)
deriving DecidableEq, Repr, Inhabited

structure Ahead where
  taken : Nat
  rest : List UInt8
deriving DecidableEq, Repr, Inhabited

/-- A computation that takes bytes off the front of a window. -/
abbrev Reader := StateT Ahead (Except Halt)

namespace Reader

instance : TakesBytes Reader where
  refuse reason := throw (.broken reason)
  peek ahead :=
    match ahead.rest with
    | [] => .error (.wants (ahead.taken + 1))
    | b :: _ => .ok (b, ahead)
  take ahead :=
    match ahead.rest with
    | [] => .error (.wants (ahead.taken + 1))
    | b :: rest => .ok (b, ⟨ahead.taken + 1, rest⟩)
  skip count ahead :=
    if count ≤ ahead.rest.length then
      .ok ((), ⟨ahead.taken + count, ahead.rest.drop count⟩)
    else
      .error (.wants (ahead.taken + count))
  consumed ahead := .ok (ahead.taken.toUInt8, ahead)
  lookup table b := pure (table b)

/-- What a reader makes of a whole window. -/
def onWindow {α : Type} (reader : Reader α) (window : List UInt8) : Except Halt α :=
  (reader ⟨0, window⟩).map (·.1)

end Reader

end CodeSpans.X86
