import CodeSpans.Proofs.X86.Stages

/-!
# Windows of code

What `Instruction.ofWindow` says of a window, and what `decode` makes of it. The branch target
marker is looked for before any stage is read, four bytes ahead; while the marker is not there in
full, the stages ask for its next byte (`readStages_of_cut_marker`), so the marker does not disturb
what is said of a window that grows: `ofWindow_append_of_ok`, `ofWindow_append_of_broken` and
`ofWindow_append_of_wants`.
-/

namespace CodeSpans

/-! ## Views end to end -/

instance : Append View := ⟨fun a b => ⟨a.bytes ++ b.bytes⟩⟩

@[simp] theorem View.toList_append (a b : View) : (a ++ b).toList = a.toList ++ b.toList :=
  Array.toList_append

@[simp] theorem View.size_append (a b : View) : (a ++ b).size = a.size + b.size :=
  Array.size_append

namespace X86

open TakesBytes Reader Ahead

theorem windowAt_eq (code : View) (start : Nat) :
    windowAt code start = (code.toList.drop start).take maxLength := by
  unfold windowAt View.toList
  rw [Array.toList_extract, List.extract_eq_take_drop, Nat.add_sub_cancel_left]

theorem length_windowAt_le (code : View) (start : Nat) :
    (windowAt code start).length ≤ maxLength := by
  rw [windowAt_eq]
  exact List.length_take_le _ _

theorem length_windowAt (code : View) (start : Nat) :
    (windowAt code start).length = min maxLength (code.size - start) := by
  rw [windowAt_eq, List.length_take, List.length_drop, View.length_toList]

/-- Behind more code, a window has the same bytes and perhaps more. -/
theorem windowAt_append (a b : View) (start : Nat) :
    ∃ more, windowAt (a ++ b) start = windowAt a start ++ more := by
  rw [windowAt_eq, windowAt_eq, View.toList_append, List.drop_append, List.take_append]
  exact ⟨_, rfl⟩

/-- Windows of the second of two views are windows of both, further on. -/
theorem windowAt_append_right (a b : View) (start : Nat) :
    windowAt (a ++ b) (a.size + start) = windowAt b start := by
  rw [windowAt_eq, windowAt_eq, View.toList_append, ← View.length_toList,
    List.drop_length_add_append]

/-! ## What a window holds -/

section OfWindow

variable {window more : List UInt8} {i : Instruction}

theorem onWindow_eq_ok_iff {α : Type} {r : Reader α} {a : α} :
    r.onWindow window = .ok a ↔ ∃ s', r ⟨0, window⟩ = .ok (a, s') := by
  unfold onWindow
  cases r ⟨0, window⟩ with
  | error halt => simp [Except.map]
  | ok answer =>
    obtain ⟨a', s'⟩ := answer
    simp [Except.map]

theorem onWindow_eq_error_iff {α : Type} {r : Reader α} {halt : Halt} :
    r.onWindow window = .error halt ↔ r ⟨0, window⟩ = .error halt := by
  unfold onWindow
  cases r ⟨0, window⟩ with
  | error halt => simp [Except.map]
  | ok answer => simp [Except.map]

theorem onWindow_map {α β : Type} (f : α → β) (r : Reader α) :
    (f <$> r).onWindow window = (r.onWindow window).map f := by
  unfold onWindow
  rw [map_apply]
  cases r ⟨0, window⟩ <;> rfl

theorem ofWindow_of_marker (h : branchMarker <+: window) :
    Instruction.ofWindow window = .ok branchMarkerInstruction :=
  if_pos (List.prefix_iff_eq_take.1 h).symm

theorem ofWindow_of_not_marker (h : ¬ branchMarker <+: window) :
    Instruction.ofWindow window = (readStages Reader).onWindow window :=
  if_neg fun same => h (List.prefix_iff_eq_take.2 same.symm)

/-- **What is accepted**: the marker, or else a well-formed encoding. -/
theorem ofWindow_eq_ok_iff :
    Instruction.ofWindow window = .ok i ↔
      (branchMarker <+: window ∧ i = branchMarkerInstruction) ∨
      (¬ branchMarker <+: window ∧
        ∃ e : Encoding, e.WellFormed ∧ e.bytes <+: window ∧ i = e.instruction) := by
  by_cases h : branchMarker <+: window
  · simp only [ofWindow_of_marker h, Except.ok.injEq, h, true_and, not_true, false_and, or_false]
    exact eq_comm
  · simp only [ofWindow_of_not_marker h, h, false_and, false_or, not_false_iff, true_and,
      onWindow_eq_ok_iff, readStages_eq_ok_iff]
    have whole : ∀ {e : Encoding} {s'}, Ahead.Takes ⟨0, window⟩ e.bytes s' →
        { e.instruction with length := s'.taken.toUInt8 } = e.instruction := by
      intro e s' takes
      have : s'.taken = e.bytes.length := by simpa using takes.2
      rw [this, ← e.instruction_length]
    constructor
    · rintro ⟨s', e, wf, takes, rfl⟩
      exact ⟨e, wf, ⟨s'.rest, takes.1.symm⟩, whole takes⟩
    · rintro ⟨e, wf, ⟨rest, hrest⟩, rfl⟩
      have takes : Ahead.Takes ⟨0, window⟩ e.bytes ⟨e.bytes.length, rest⟩ :=
        ⟨hrest.symm, by simp⟩
      exact ⟨_, e, wf, takes, (whole takes).symm⟩

theorem ofWindow_eq_error_iff {halt : Halt} :
    Instruction.ofWindow window = .error halt ↔
      ¬ branchMarker <+: window ∧ readStages Reader ⟨0, window⟩ = .error halt := by
  by_cases h : branchMarker <+: window
  · simp [ofWindow_of_marker h, h]
  · simp [ofWindow_of_not_marker h, h, onWindow_eq_error_iff]

theorem readStages_marker_take : ∀ n < branchMarker.length,
    readStages Reader ⟨0, branchMarker.take n⟩ = .error (.wants (n + 1)) := by
  decide +kernel

/-- A marker that is cut makes the stages ask for its next byte. -/
theorem readStages_of_cut_marker (cut : ¬ branchMarker <+: window)
    (whole : branchMarker <+: window ++ more) :
    readStages Reader ⟨0, window⟩ = .error (.wants (window.length + 1)) := by
  have short : window.length < branchMarker.length := by
    rcases Nat.lt_or_ge window.length branchMarker.length with h | h
    · exact h
    · exact absurd (List.prefix_of_prefix_length_le whole (List.prefix_append _ _) h) cut
  have part : window <+: branchMarker :=
    List.prefix_of_prefix_length_le (List.prefix_append _ _) whole (Nat.le_of_lt short)
  have same := readStages_marker_take window.length short
  rwa [← List.prefix_iff_eq_take.1 part] at same

theorem isRule_of_ofWindow {reason : Rejection}
    (h : Instruction.ofWindow window = .error (.broken reason)) : reason.IsRule :=
  (steady_readStages.broken (ofWindow_eq_error_iff.1 h).2).1

/-- Only bytes that are not there are asked for. -/
theorem length_lt_of_ofWindow {length : Nat}
    (h : Instruction.ofWindow window = .error (.wants length)) : window.length < length := by
  simpa using (steady_readStages.wants (ofWindow_eq_error_iff.1 h).2).1

/-- So short a length is not cut when it is put into a byte. -/
theorem Encoding.instruction_length_toNat (e : Encoding) (short : e.bytes.length ≤ maxLength) :
    e.instruction.length.toNat = e.bytes.length := by
  rw [e.instruction_length, Nat.toUInt8_eq, UInt8.toNat_ofNat']
  exact Nat.mod_eq_of_lt (by unfold maxLength at short; omega)

theorem length_of_ofWindow (h : Instruction.ofWindow window = .ok i)
    (fits : window.length ≤ maxLength) : 0 < i.length.toNat ∧ i.length.toNat ≤ window.length := by
  obtain ⟨whole, rfl⟩ | ⟨-, e, -, within, rfl⟩ := ofWindow_eq_ok_iff.1 h
  · exact ⟨by decide, whole.length_le⟩
  · have some := List.length_pos_iff.2 e.bytes_ne_nil
    have short := within.length_le
    have same := e.instruction_length_toNat (Nat.le_trans short fits)
    omega

/-! ## Windows that grow -/

theorem ofWindow_append_of_ok (h : Instruction.ofWindow window = .ok i) (more : List UInt8) :
    Instruction.ofWindow (window ++ more) = .ok i := by
  by_cases marker : branchMarker <+: window
  · rw [ofWindow_of_marker marker] at h
    rwa [ofWindow_of_marker (marker.trans (List.prefix_append _ _))]
  · rw [ofWindow_of_not_marker marker, onWindow_eq_ok_iff] at h
    obtain ⟨s', hs⟩ := h
    have notWhole : ¬ branchMarker <+: window ++ more := fun whole => by
      rw [readStages_of_cut_marker marker whole] at hs
      cases hs
    rw [ofWindow_of_not_marker notWhole, onWindow_eq_ok_iff]
    exact ⟨_, (steady_readStages.ok hs).2 more⟩

theorem ofWindow_append_of_broken {reason : Rejection}
    (h : Instruction.ofWindow window = .error (.broken reason)) (more : List UInt8) :
    Instruction.ofWindow (window ++ more) = .error (.broken reason) := by
  obtain ⟨marker, hs⟩ := ofWindow_eq_error_iff.1 h
  refine ofWindow_eq_error_iff.2 ⟨fun whole => ?_, (steady_readStages.broken hs).2 more⟩
  rw [readStages_of_cut_marker marker whole] at hs
  cases hs

/-- A demand is the same until the window has as many bytes. -/
theorem ofWindow_append_of_wants {length : Nat}
    (h : Instruction.ofWindow window = .error (.wants length)) {more : List UInt8}
    (few : window.length + more.length < length) :
    Instruction.ofWindow (window ++ more) = .error (.wants length) := by
  obtain ⟨marker, hs⟩ := ofWindow_eq_error_iff.1 h
  refine ofWindow_eq_error_iff.2
    ⟨fun whole => ?_, (steady_readStages.wants hs).2 more (by simpa using few)⟩
  -- a cut marker asks for one byte, so nothing was added to it
  rw [readStages_of_cut_marker marker whole] at hs
  cases hs
  obtain rfl : more = [] := List.eq_nil_of_length_eq_zero (by omega)
  exact marker (by simpa using whole)

end OfWindow

/-! ## What `decode` makes of a window -/

section Decode

variable {code : View} {start : Nat}

theorem rejection_of_lt {length : Nat} (h : maxLength < length) :
    (Halt.wants length).rejection code start = .tooLong := if_pos h

theorem rejection_of_le {length : Nat} (h : length ≤ maxLength) :
    (Halt.wants length).rejection code start = .truncated ⟨start, length, code.size⟩ :=
  if_neg (Nat.not_lt.2 h)

theorem decode_eq_ok_iff {span : Span} :
    decode code start = .ok span ↔
      ∃ i, Instruction.ofWindow (windowAt code start) = .ok i ∧ span = { i with start } := by
  unfold decode
  cases Instruction.ofWindow (windowAt code start) with
  | ok i => simp [eq_comm]
  | error halt => simp

theorem decode_eq_error_iff {reason : Rejection} :
    decode code start = .error reason ↔
      ∃ halt, Instruction.ofWindow (windowAt code start) = .error halt ∧
        reason = halt.rejection code start := by
  unfold decode
  cases Instruction.ofWindow (windowAt code start) with
  | ok i => simp
  | error halt => simp [eq_comm]

/-- A rejection that is for no rule comes of a demand for bytes. -/
theorem decode_eq_error_iff_wants {reason : Rejection} (noRule : ¬ reason.IsRule) :
    decode code start = .error reason ↔
      ∃ length, Instruction.ofWindow (windowAt code start) = .error (.wants length) ∧
        reason = (Halt.wants length).rejection code start := by
  rw [decode_eq_error_iff]
  constructor
  · intro h
    obtain ⟨halt, halted, same⟩ := h
    cases halt with
    | broken other =>
      obtain rfl : reason = other := same
      exact absurd (isRule_of_ofWindow halted) noRule
    | wants length => exact ⟨length, halted, same⟩
  · intro h
    obtain ⟨length, halted, same⟩ := h
    exact ⟨_, halted, same⟩

/-- An instruction starts where it is asked for, and ends within the code. -/
theorem decode_bounds {span : Span} (h : decode code start = .ok span) :
    span.start = start ∧ 0 < span.length.toNat ∧ span.length.toNat ≤ maxLength ∧
      span.next ≤ code.size := by
  obtain ⟨i, accepted, rfl⟩ := decode_eq_ok_iff.1 h
  obtain ⟨some, short⟩ := length_of_ofWindow accepted (length_windowAt_le code start)
  rw [length_windowAt] at short
  refine ⟨rfl, some, show i.length.toNat ≤ maxLength by omega, ?_⟩
  change start + i.length.toNat ≤ code.size
  omega

/-- Three kinds of rejections there are: a rule is broken, or else more is asked for than an
instruction may have, or than there is. -/
theorem decode_error_cases {reason : Rejection} (h : decode code start = .error reason) :
    reason.IsRule ∨ reason = .tooLong ∨ ∃ length ≤ maxLength, code.size < start + length ∧
      reason = .truncated ⟨start, length, code.size⟩ := by
  obtain ⟨halt, halted, rfl⟩ := decode_eq_error_iff.1 h
  cases halt with
  | broken reason => exact .inl (isRule_of_ofWindow halted)
  | wants length =>
    have beyond := length_lt_of_ofWindow halted
    rw [length_windowAt] at beyond
    rcases Nat.lt_or_ge maxLength length with long | short
    · exact .inr (.inl (rejection_of_lt long))
    · exact .inr (.inr ⟨length, short, by omega, rejection_of_le short⟩)

theorem decode_ne_noProgress : decode code start ≠ .error .noProgress := by
  intro answer
  obtain rule | same | ⟨length, -, -, same⟩ := decode_error_cases answer
  · cases rule
  · cases same
  · cases same

end Decode

end X86

end CodeSpans
