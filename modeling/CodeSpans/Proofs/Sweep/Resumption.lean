import CodeSpans.Proofs.Sweep.Tiling
import CodeSpans.Proofs.X86.Locality

/-!
# Sweeping code in pieces

What a sweep finds stays when the code grows at its end. A sweep that comes to the end of its code
can be taken up there: the sweep of the code and more is that sweep and then the sweep of the rest,
moved. So code that is put together from whole instructions is cut into these again.
-/

namespace CodeSpans

open X86

/-- The stop behind `n` more bytes of code. -/
def Stop.shift (n : Nat) (s : Stop) : Stop := ⟨n + s.offset, s.reason.shift n⟩

section

variable {a b : View} {offset : Nat} {spans spans' : List Span} {stop stop' : Option Stop}

/-- A walk behind other code is the walk of the code itself, moved. -/
theorem Walk.shift (a : View) (w : Walk decode b offset spans stop) :
    Walk decode (a ++ b) (a.size + offset) (spans.map (Span.shift a.size))
      (stop.map (Stop.shift a.size)) := by
  induction w with
  | done behind =>
    exact .done (by rw [View.size_append]; omega)
  | rejected within answer =>
    exact .rejected (by rw [View.size_append]; omega) (decode_append_right_of_error a answer)
  | stuck within answer empty =>
    exact .stuck (by rw [View.size_append]; omega) (decode_append_right_of_ok a answer) empty
  | step within answer progress rest ih =>
    refine .step (by rw [View.size_append]; omega) (decode_append_right_of_ok a answer) progress ?_
    rw [← Nat.add_assoc] at ih
    exact ih

/-- A walk goes on in the code behind as a walk from where it ends. -/
theorem Walk.extend_append (w : Walk decode a offset spans stop)
    (w' : Walk decode (a ++ b) (offset + extent spans) spans' stop') :
    Walk decode (a ++ b) offset (spans ++ spans') stop' := by
  refine w.extend ?_ ?_ w'
  · rw [View.size_append]
    omega
  · intro offset span answer
    rw [decode_append (fun o => answer ▸ nofun), answer]

end

/-! ## Sweeps of code and more code -/

section

variable (a b : View)

theorem Sweep.spans_run_append :
    (run decode a).spans <+: (run decode (a ++ b)).spans := by
  have w := Sweep.walk decode a
  obtain ⟨more, stop, w'⟩ := Walk.exists decode (a ++ b) (0 + extent (run decode a).spans)
  obtain ⟨same, -⟩ := (w.extend_append w').unique (Sweep.walk decode (a ++ b))
  exact ⟨more, same⟩

variable {a} in
theorem Sweep.run_append_of_none (h : (run decode a).stop = none) :
    run decode (a ++ b) =
      ⟨(run decode a).spans ++ (run decode b).spans.map (Span.shift a.size),
        (run decode b).stop.map (Stop.shift a.size)⟩ := by
  have w := Sweep.walk decode a
  rw [h] at w
  have moved := (Sweep.walk decode b).shift a
  rw [Nat.add_zero] at moved
  refine run_eq_iff.2 (w.extend_append ?_)
  rw [w.extent_eq decode_exact (Nat.zero_le _)]
  exact moved

variable {a} in
theorem Sweep.run_append_of_some {stop : Stop} (h : (run decode a).stop = some stop)
    (whole : ∀ o, stop.reason ≠ .truncated o) : run decode (a ++ b) = run decode a := by
  have w := Sweep.walk decode a
  rw [h] at w
  obtain ⟨place, within, answer⟩ := w.stop_eq decode_exact
  have halted : Walk decode (a ++ b) stop.offset [] (some stop) := by
    refine .rejected (by rw [View.size_append]; omega) ?_
    rw [decode_append (fun o => answer ▸ fun same => whole o (Except.error.inj same)), answer]
  rw [place] at halted
  have whole := w.extend_append halted
  rw [List.append_nil, ← h] at whole
  exact run_eq_iff.2 whole

end

/-! ## Whole instructions end to end -/

/-- Views end to end. -/
def View.concat (views : List View) : View := views.foldr (· ++ ·) .empty

/-- Spans end to end from an offset on. -/
def placed : Nat → List Span → List Span
  | _, [] => []
  | offset, span :: rest => span.shift offset :: placed (offset + span.length.toNat) rest

theorem map_shift_placed (n offset : Nat) (spans : List Span) :
    (placed offset spans).map (Span.shift n) = placed (n + offset) spans := by
  induction spans generalizing offset with
  | nil => rfl
  | cons span rest ih =>
    rw [placed, placed, List.map_cons, ih, Nat.add_assoc, Span.shift_shift]

theorem Sweep.run_of_whole {word : View} {span : Span} (answer : decode word 0 = .ok span)
    (whole : span.length.toNat = word.size) : run decode word = ⟨[span], none⟩ := by
  obtain ⟨-, some, -, -⟩ := decode_bounds answer
  refine run_eq_iff.2 (.step (by omega) answer ?_ (.done (by omega)))
  rintro empty
  rw [empty] at some
  exact absurd some (by decide)

theorem Sweep.run_concat {words : List View} {spans : List Span}
    (whole : List.Forall₂ (fun word span => decode word 0 = .ok span ∧
      span.length.toNat = word.size) words spans) :
    run decode (.concat words) = ⟨placed 0 spans, none⟩ := by
  induction whole with
  | nil => exact run_eq_iff.2 (.done (Nat.zero_le _))
  | @cons word span words spans first rest ih =>
    have alone := run_of_whole first.1 first.2
    calc run decode (.concat (word :: words))
        = ⟨[span] ++ (placed 0 spans).map (Span.shift word.size), none⟩ := by
          have joined := run_append_of_none (View.concat words) (congrArg Sweep.stop alone)
          rw [alone, ih] at joined
          exact joined
      _ = ⟨placed 0 (span :: spans), none⟩ := by
          rw [map_shift_placed, placed, Span.shift_zero, first.2, Nat.zero_add, Nat.add_zero]
          rfl

/-- **Sweeps in pieces.** More code takes away nothing that is found. Behind code that is swept to
its end, the sweep is that of the rest, moved. A sweep that stops at anything but an instruction cut
short stays as it is. Whole instructions end to end are found as they were put together. -/
theorem Sweep.run_resumes :
    (∀ a b : View, (run decode a).spans <+: (run decode (a ++ b)).spans) ∧
    (∀ a b : View, (run decode a).stop = none →
      run decode (a ++ b) =
        ⟨(run decode a).spans ++ (run decode b).spans.map (Span.shift a.size),
          (run decode b).stop.map (Stop.shift a.size)⟩) ∧
    (∀ (a b : View) (stop : Stop), (run decode a).stop = some stop →
      (∀ o, stop.reason ≠ .truncated o) → run decode (a ++ b) = run decode a) ∧
    (∀ (words : List View) (spans : List Span),
      List.Forall₂ (fun word span => decode word 0 = .ok span ∧ span.length.toNat = word.size)
        words spans →
      run decode (.concat words) = ⟨placed 0 spans, none⟩) :=
  ⟨spans_run_append, fun _ b => run_append_of_none b, fun _ b _ => run_append_of_some b,
    fun _ _ => run_concat⟩

theorem Sweep.run_resumes_two_words :
    run decode (.concat [⟨#[0x90]⟩, ⟨#[0x0f, 0x1f, 0x00]⟩]) =
      ⟨[⟨⟨1, false, false, false, .oneByte, 0x90, none⟩, 0⟩,
        ⟨⟨3, false, false, false, .twoByte, 0x1f, none⟩, 1⟩], none⟩ := by
  refine run_resumes.2.2.2 _ [⟨⟨1, false, false, false, .oneByte, 0x90, none⟩, 0⟩,
    ⟨⟨3, false, false, false, .twoByte, 0x1f, none⟩, 0⟩] (.cons ⟨?_, rfl⟩ (.cons ⟨?_, rfl⟩ .nil))
  · decide +kernel
  · decide +kernel

end CodeSpans
