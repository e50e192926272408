import CodeSpans.X86.Rejection
import CodeSpans.X86.Span

/-!
# Sweeping code

A sweep cuts code into instructions from its first byte on, each starting where
the one before it ends. It ends at the end of the code or, with a `Stop`, at
the first offset where the decoder has no instruction. What was found before
the stop is kept. Any function from code and offset to an answer may be the
decoder; an answer without bytes stops the sweep, so every sweep ends. The loop
is that of every monad the decoder may act in, and `Sweep.run` is the sweep with
a decoder that only answers.
-/

namespace CodeSpans

open X86

/-- Finds the instruction at an offset of some code. -/
abbrev Decoder := View → Nat → Except Rejection Span

/-- Where and why a sweep ended before the end of its code. -/
structure Stop where
  offset : Nat
  reason : Rejection
deriving DecidableEq, Repr, Inhabited

/-- Number of bytes in some instructions. -/
def extent (spans : List Span) : Nat :=
  spans.foldr (fun span bytes => span.length.toNat + bytes) 0

/-- What a sweep found. -/
structure Sweep where
  spans : List Span
  /-- Set when the sweep ended early. -/
  stop : Option Stop
deriving DecidableEq, Repr, Inhabited

namespace Sweep

section

variable {m : Type → Type} [Monad m]

/-- The sweep from `offset` on, behind the instructions `found` so far, last first, with a decoder
that may act as well as answer. -/
@[specialize]
def askFrom (decoder : View → Nat → m (Except Rejection Span)) (code : View) (found : List Span)
    (offset : Nat) : m Sweep := do
  if offset < code.size then
    match ← decoder code offset with
    | .error reason => return ⟨found.reverse, some ⟨offset, reason⟩⟩
    | .ok span =>
      if span.length = 0 then
        return ⟨found.reverse, some ⟨offset, .noProgress⟩⟩
      else
        askFrom decoder code (span :: found) (offset + span.length.toNat)
  else
    return ⟨found.reverse, none⟩
termination_by code.size - offset
decreasing_by
  have : span.length.toNat ≠ 0 := fun h => by simp_all [← UInt8.toNat_inj]
  omega

/-- The sweep of some code from its first byte, with a decoder that may act. -/
@[specialize]
def ask (decoder : View → Nat → m (Except Rejection Span)) (code : View) : m Sweep :=
  askFrom decoder code [] 0

end

/-- The sweep of some code from its first byte. -/
def run (decoder : Decoder) (code : View) : Sweep :=
  ask (m := Id) decoder code

def isComplete (s : Sweep) : Bool := s.stop.isNone

def byteCount (s : Sweep) : Nat :=
  extent s.spans

end Sweep

end CodeSpans
