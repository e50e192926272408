import CodeSpans.Proofs.Sweep.Walk
import Mathlib.Data.List.Chain

/-!
# Calls of the decoder

What a sweep asks of its decoder, whatever the decoder answers: instructions that are empty, that run
past the end of the code, or that say of themselves that they start elsewhere. With a decoder that
keeps a log the loop of `Sweep.run` shows its calls, which are one for each instruction that is found
and one for the stop (`Walk.askFrom_logging`); so there are no more calls than bytes, and all that is
found before a stop is kept (`Sweep.run_asks`).
-/

namespace CodeSpans

open X86

namespace Sweep

/-! ## The log -/

/-- A call of a decoder, with its answer. -/
structure Call where
  offset : Nat
  answer : Except Rejection Span

/-- The instruction that a call found, if it has bytes. -/
def Call.found? (call : Call) : Option Span :=
  match call.answer with
  | .error _ => none
  | .ok span => if span.length = 0 then none else some span

/-- A decoder that keeps a log of its calls. -/
def logging (decoder : Decoder) (code : View) (offset : Nat) :
    StateM (List Call) (Except Rejection Span) := do
  let answer := decoder code offset
  modify (· ++ [⟨offset, answer⟩])
  return answer

theorem run_logging_bind {α : Type} (decoder : Decoder) (code : View) (offset : Nat)
    (f : Except Rejection Span → StateM (List Call) α) (log : List Call) :
    (logging decoder code offset >>= f).run log =
      (f (decoder code offset)).run (log ++ [⟨offset, decoder code offset⟩]) := rfl

/-- The calls of a walk: one for each instruction that it finds, at the place where those before it
end, and one for its stop. -/
def callsOf (decoder : Decoder) (code : View) : Nat → List Span → Option Stop → List Call
  | _, [], stop => stop.toList.map fun place => ⟨place.offset, decoder code place.offset⟩
  | offset, span :: spans, stop =>
    ⟨offset, .ok span⟩ :: callsOf decoder code (offset + span.length.toNat) spans stop

end Sweep

/-! ## The calls of a walk -/

section

open Sweep

variable {decoder : Decoder} {code : View} {offset : Nat} {spans : List Span} {stop : Option Stop}

theorem Walk.askFrom_logging (w : Walk decoder code offset spans stop) (found : List Span)
    (log : List Call) :
    (askFrom (logging decoder) code found offset).run log =
      (⟨found.reverse ++ spans, stop⟩, log ++ callsOf decoder code offset spans stop) := by
  induction w generalizing found log with
  | done behind =>
    rw [askFrom, if_neg (Nat.not_lt.2 behind), callsOf, List.append_nil]
    simp
    rfl
  | rejected within answer =>
    rw [askFrom, if_pos within, run_logging_bind, answer, callsOf, List.append_nil]
    simp [answer]
    rfl
  | stuck within answer empty =>
    rw [askFrom, if_pos within, run_logging_bind, answer, callsOf, List.append_nil]
    simp [answer, empty]
    rfl
  | step within answer progress rest ih =>
    rw [askFrom, if_pos within, run_logging_bind, answer]
    simp only [if_neg progress]
    rw [ih, callsOf]
    simp

/-- Every call but that of the stop comes to a byte that no other call comes to. -/
theorem Walk.few_calls (w : Walk decoder code offset spans stop) :
    (callsOf decoder code offset spans stop).length ≤ code.size - offset := by
  induction w with
  | done _ => exact Nat.zero_le _
  | rejected within _ | stuck within _ _ => exact Nat.sub_pos_of_lt within
  | @step offset span spans stop within _ progress _ ih =>
    have some : span.length.toNat ≠ 0 := fun zero => progress (UInt8.toNat_inj.1 zero)
    rw [callsOf, List.length_cons]
    omega

theorem Walk.call_of_mem (w : Walk decoder code offset spans stop) {call : Call}
    (mem : call ∈ callsOf decoder code offset spans stop) :
    call.answer = decoder code call.offset ∧ offset ≤ call.offset ∧ call.offset < code.size := by
  induction w with
  | done _ => cases mem
  | rejected within _ | stuck within _ _ =>
    obtain rfl := List.mem_singleton.1 mem
    exact ⟨rfl, Nat.le_refl _, within⟩
  | step within answer _ _ ih =>
    rcases List.mem_cons.1 mem with rfl | mem
    · exact ⟨answer.symm, Nat.le_refl _, within⟩
    · obtain ⟨same, behind, inside⟩ := ih mem
      exact ⟨same, by omega, inside⟩

theorem Walk.first_call (w : Walk decoder code offset spans stop) {call : Call}
    (head : call ∈ (callsOf decoder code offset spans stop).head?) : call.offset = offset := by
  cases w with
  | done _ => cases head
  | rejected _ _ | stuck _ _ _ | step _ _ _ _ =>
    obtain rfl := Option.some_inj.1 head
    rfl

theorem Walk.calls_linked (w : Walk decoder code offset spans stop) :
    (callsOf decoder code offset spans stop).IsChain fun call next =>
      ∃ span, call.answer = .ok span ∧ span.length ≠ 0 ∧
        next.offset = call.offset + span.length.toNat := by
  induction w with
  | done _ => exact .nil
  | rejected _ _ | stuck _ _ _ => exact .singleton _
  | step _ _ progress rest ih =>
    refine List.isChain_cons.2 ⟨fun next head => ?_, ih⟩
    exact ⟨_, rfl, progress, rest.first_call head⟩

theorem Walk.calls_increase (w : Walk decoder code offset spans stop) :
    (callsOf decoder code offset spans stop).Pairwise fun call later =>
      call.offset < later.offset := by
  induction w with
  | done _ => exact .nil
  | rejected _ _ | stuck _ _ _ => exact List.pairwise_singleton _ _
  | @step offset span _ _ _ _ progress rest ih =>
    have some : span.length.toNat ≠ 0 := fun zero => progress (UInt8.toNat_inj.1 zero)
    refine List.pairwise_cons.2 ⟨fun later mem => ?_, ih⟩
    obtain ⟨-, behind, -⟩ := rest.call_of_mem mem
    dsimp only
    omega

theorem Walk.found_by_calls (w : Walk decoder code offset spans stop) :
    (callsOf decoder code offset spans stop).filterMap Call.found? = spans := by
  induction w with
  | done _ => rfl
  | rejected _ answer => simp [callsOf, Call.found?, answer]
  | stuck _ answer empty => simp [callsOf, Call.found?, answer, empty]
  | step _ _ progress _ ih => simp [callsOf, Call.found?, progress, ih]

theorem Walk.length_calls (w : Walk decoder code offset spans stop) :
    (callsOf decoder code offset spans stop).length = spans.length + stop.toList.length := by
  induction w with
  | done _ | rejected _ _ | stuck _ _ _ => simp [callsOf]
  | step _ _ _ _ ih =>
    rw [callsOf, List.length_cons, List.length_cons, ih]
    omega

theorem Walk.stop_eq_none_iff (w : Walk decoder code offset spans stop) :
    stop = none ↔ code.size ≤ offset + extent spans := by
  cases w.at_end with
  | done behind => exact iff_of_true rfl behind
  | rejected within _ | stuck within _ _ => exact iff_of_false nofun (Nat.not_le.2 within)

theorem Walk.stop_of_lt (w : Walk decoder code offset spans stop)
    (within : offset + extent spans < code.size) :
    ∃ place, stop = some place ∧ place.offset = offset + extent spans ∧
      ((∃ span, decoder code (offset + extent spans) = .ok span ∧ span.length = 0 ∧
          place.reason = .noProgress) ∨
        decoder code (offset + extent spans) = .error place.reason) := by
  cases w.at_end with
  | done behind => exact absurd within (Nat.not_lt.2 behind)
  | rejected _ answer => exact ⟨_, rfl, rfl, .inr answer⟩
  | stuck _ answer empty => exact ⟨_, rfl, rfl, .inl ⟨_, answer, empty, rfl⟩⟩

end

namespace Sweep

/-- What a sweep asks of its decoder, and how its result comes of the answers. -/
structure Asks (decoder : Decoder) (code : View) (calls : List Call) (s : Sweep) : Prop where
  few : calls.length ≤ code.size
  answers : ∀ call ∈ calls, call.answer = decoder code call.offset
  within : ∀ call ∈ calls, call.offset < code.size
  first : ∀ call ∈ calls.head?, call.offset = 0
  linked : calls.IsChain fun call next => ∃ span, call.answer = .ok span ∧ span.length ≠ 0 ∧
    next.offset = call.offset + span.length.toNat
  increase : calls.Pairwise fun call later => call.offset < later.offset
  found : s.spans = calls.filterMap Call.found?
  /-- No call but that of the stop is without an instruction. -/
  kept : calls.length = s.spans.length + s.stop.toList.length
  whole : s.stop = none ↔ code.size ≤ s.byteCount
  stopped : s.byteCount < code.size → ∃ stop, s.stop = some stop ∧ stop.offset = s.byteCount ∧
    ((∃ span, decoder code s.byteCount = .ok span ∧ span.length = 0 ∧
        stop.reason = .noProgress) ∨
      decoder code s.byteCount = .error stop.reason)

/-- **Sweeps of any decoder.** Whatever the decoder answers, a sweep ends, with no more calls than there
are bytes: from the first byte on, each where the instruction before it ends, and all within the
code. It has the instructions that the calls found, in order and without a loss. It has no stop just
where they come to the end of the code or past it. Otherwise its stop is where they end, for an
instruction without bytes or for the reason that the decoder gives there. -/
theorem run_asks (decoder : Decoder) (code : View) :
    ask (m := Id) decoder code = run decoder code ∧
    ∃ calls, (ask (logging decoder) code).run [] = (run decoder code, calls) ∧
      Asks decoder code calls (run decoder code) := by
  have w := Sweep.walk decoder code
  have ends : 0 + extent (run decoder code).spans = (run decoder code).byteCount := Nat.zero_add _
  refine ⟨rfl, _, w.askFrom_logging [] [], ?_⟩
  exact {
    few := w.few_calls
    answers := fun call mem => (w.call_of_mem mem).1
    within := fun call mem => (w.call_of_mem mem).2.2
    first := fun call head => w.first_call head
    linked := w.calls_linked
    increase := w.calls_increase
    found := w.found_by_calls.symm
    kept := w.length_calls
    whole := ends ▸ w.stop_eq_none_iff
    stopped := ends ▸ w.stop_of_lt }

/-- An instruction that runs past the end of the code is kept, and there is no stop behind it. -/
example (span : Span) (long : span.length = 200) :
    run (fun _ _ => .ok span) ⟨#[0x90, 0xc3]⟩ = ⟨[span], none⟩ := by
  refine run_eq_iff.2 (.step (by decide) rfl ?_ (.done ?_))
  · rw [long]
    decide
  · rw [long]
    decide

end Sweep

end CodeSpans
