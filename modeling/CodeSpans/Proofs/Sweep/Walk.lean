import CodeSpans.Sweep

/-!
# Walks

A `Walk` is a sweep from an offset on, as a relation between the offset, the instructions found and
the stop. There is one walk from every offset (`Walk.exists`, `Walk.unique`), and a sweep is the
walk from offset zero (`Sweep.run_eq_iff`), so what is to be shown of sweeps is shown by induction
on walks. No property of the decoder is used here.
-/

namespace CodeSpans

open X86

/-- The walk of a decoder through some code: the offset it begins at, the instructions it finds, and
its stop. -/
inductive Walk (decoder : Decoder) (code : View) : Nat → List Span → Option Stop → Prop where
  | done {offset : Nat} (behind : code.size ≤ offset) : Walk decoder code offset [] none
  | rejected {offset : Nat} {reason : Rejection} (within : offset < code.size)
      (answer : decoder code offset = .error reason) :
      Walk decoder code offset [] (some ⟨offset, reason⟩)
  | stuck {offset : Nat} {span : Span} (within : offset < code.size)
      (answer : decoder code offset = .ok span) (empty : span.length = 0) :
      Walk decoder code offset [] (some ⟨offset, .noProgress⟩)
  | step {offset : Nat} {span : Span} {spans : List Span} {stop : Option Stop}
      (within : offset < code.size) (answer : decoder code offset = .ok span)
      (progress : span.length ≠ 0)
      (rest : Walk decoder code (offset + span.length.toNat) spans stop) :
      Walk decoder code offset (span :: spans) stop

@[simp] theorem extent_nil : extent [] = 0 := rfl

@[simp] theorem extent_cons (span : Span) (spans : List Span) :
    extent (span :: spans) = span.length.toNat + extent spans := rfl

@[simp] theorem extent_append (spans spans' : List Span) :
    extent (spans ++ spans') = extent spans + extent spans' := by
  induction spans with
  | nil => simp
  | cons span spans ih => simp [ih, Nat.add_assoc]

theorem Sweep.byteCount_eq (s : Sweep) : s.byteCount = extent s.spans := rfl

section

variable {decoder : Decoder} {code : View} {offset : Nat} {spans spans' : List Span}
  {stop stop' : Option Stop}

/-! ## Sweeps are walks -/

theorem Walk.askFrom_eq (w : Walk decoder code offset spans stop) (found : List Span) :
    Sweep.askFrom (m := Id) decoder code found offset = ⟨found.reverse ++ spans, stop⟩ := by
  induction w generalizing found with
  | done behind =>
    rw [Sweep.askFrom, if_neg (Nat.not_lt.2 behind), List.append_nil]
    rfl
  | rejected within answer =>
    rw [Sweep.askFrom, if_pos within, answer, List.append_nil]
    rfl
  | stuck within answer empty =>
    rw [Sweep.askFrom, if_pos within, answer, List.append_nil]
    exact if_pos empty
  | step within answer progress rest ih =>
    rw [Sweep.askFrom, if_pos within, answer]
    refine (if_neg progress).trans ?_
    rw [ih, List.reverse_cons, List.append_assoc, List.singleton_append]

theorem Walk.exists (decoder : Decoder) (code : View) (offset : Nat) :
    ∃ spans stop, Walk decoder code offset spans stop := by
  induction h : code.size - offset using Nat.strongRecOn generalizing offset with
  | _ n ih =>
    rcases Nat.lt_or_ge offset code.size with within | behind
    · cases answer : decoder code offset with
      | error reason => exact ⟨_, _, .rejected within answer⟩
      | ok span =>
        by_cases empty : span.length = 0
        · exact ⟨_, _, .stuck within answer empty⟩
        · have some : span.length.toNat ≠ 0 := fun zero => empty (UInt8.toNat_inj.1 zero)
          obtain ⟨spans, stop, rest⟩ := ih _ (by omega) (offset + span.length.toNat) rfl
          exact ⟨_, _, .step within answer empty rest⟩
    · exact ⟨_, _, .done behind⟩

/-- A sweep is the walk from offset zero. -/
theorem Sweep.run_eq_iff {s : Sweep} :
    Sweep.run decoder code = s ↔ Walk decoder code 0 s.spans s.stop := by
  constructor
  · rintro rfl
    obtain ⟨spans, stop, w⟩ := Walk.exists decoder code 0
    rw [Sweep.run, Sweep.ask, w.askFrom_eq]
    exact w
  · intro w
    rw [Sweep.run, Sweep.ask, w.askFrom_eq]
    rfl

theorem Sweep.walk (decoder : Decoder) (code : View) :
    Walk decoder code 0 (run decoder code).spans (run decoder code).stop :=
  run_eq_iff.1 rfl

theorem Walk.unique (w : Walk decoder code offset spans stop)
    (w' : Walk decoder code offset spans' stop') : spans = spans' ∧ stop = stop' := by
  have same : (⟨spans, stop⟩ : Sweep) = ⟨spans', stop'⟩ :=
    (w.askFrom_eq []).symm.trans (w'.askFrom_eq [])
  exact Sweep.mk.inj same

/-! ## Parts of walks -/

theorem Walk.step_inv {span : Span} (w : Walk decoder code offset (span :: spans) stop) :
    offset < code.size ∧ decoder code offset = .ok span ∧ span.length ≠ 0 ∧
      Walk decoder code (offset + span.length.toNat) spans stop := by
  cases w with
  | step within answer progress rest => exact ⟨within, answer, progress, rest⟩

/-- A walk goes on from where some of its instructions end as a walk from there would. -/
theorem Walk.behind (w : Walk decoder code offset (spans ++ spans') stop) :
    Walk decoder code (offset + extent spans) spans' stop := by
  induction spans generalizing offset with
  | nil => exact w
  | cons span spans ih =>
    obtain ⟨-, -, -, rest⟩ := w.step_inv
    rw [extent_cons, ← Nat.add_assoc]
    exact ih rest

/-- At the end of a walk there is nothing more to be found. -/
theorem Walk.at_end (w : Walk decoder code offset spans stop) :
    Walk decoder code (offset + extent spans) [] stop := by
  rw [← List.append_nil spans] at w
  exact w.behind

/-- A walk through some code is the front of a walk of another decoder through more code, if that
has the same answers wherever the first one finds an instruction. -/
theorem Walk.extend {decoder' : Decoder} {code' : View} (longer : code.size ≤ code'.size)
    (same : ∀ {offset span}, decoder code offset = .ok span → decoder' code' offset = .ok span)
    (w : Walk decoder code offset spans stop)
    (w' : Walk decoder' code' (offset + extent spans) spans' stop') :
    Walk decoder' code' offset (spans ++ spans') stop' := by
  induction w with
  | done _ | rejected _ _ | stuck _ _ _ => exact w'
  | step within answer progress rest ih =>
    rw [extent_cons, ← Nat.add_assoc] at w'
    exact .step (Nat.lt_of_lt_of_le within longer) (same answer) progress (ih w')

end

end CodeSpans
