import CodeSpans.Proofs.X86.Window

/-!
# What an answer depends on

An answer at an offset depends on the window of code there and on nothing else, save for a
`truncated` rejection, which also says where it was met and how much code there was. So any other
answer stays when the code grows at its end (`decode_append`), and a window of full length is never
answered by `truncated` (`decode_ne_truncated`). Code in front moves an answer
(`decode_append_right_of_ok`, `decode_append_right_of_error`).
-/

namespace CodeSpans.X86

/-! ## Code behind -/

section

variable {a b : View} {start : Nat}

/-- No more than a `truncated` rejection is lost when the code ends early. -/
theorem decode_append (h : ∀ o, decode a start ≠ .error (.truncated o)) (b : View) :
    decode (a ++ b) start = decode a start := by
  obtain ⟨more, grown⟩ := windowAt_append a b start
  cases answer : decode a start with
  | ok span =>
    obtain ⟨i, accepted, rfl⟩ := decode_eq_ok_iff.1 answer
    rw [decode_eq_ok_iff, grown]
    exact ⟨i, ofWindow_append_of_ok accepted more, rfl⟩
  | error reason =>
    obtain ⟨halt, halted, rfl⟩ := decode_eq_error_iff.1 answer
    rw [decode_eq_error_iff, grown]
    cases halt with
    | broken reason => exact ⟨_, ofWindow_append_of_broken halted more, rfl⟩
    | wants length =>
      rcases Nat.lt_or_ge maxLength length with long | short
      · -- the grown window is still shorter than what is asked for
        have fits := length_windowAt_le (a ++ b) start
        rw [grown, List.length_append] at fits
        refine ⟨_, ofWindow_append_of_wants halted (by omega), ?_⟩
        rw [rejection_of_lt long, rejection_of_lt long]
      · rw [rejection_of_le short] at answer
        exact absurd answer (h _)

/-- A window of full length has all the bytes that an instruction may ask for. -/
theorem decode_ne_truncated (full : start + maxLength ≤ a.size) (o : Overrun) :
    decode a start ≠ .error (.truncated o) := by
  intro answer
  obtain rule | same | ⟨length, short, beyond, -⟩ := decode_error_cases answer
  · cases rule
  · cases same
  · omega

/-- Two codes with the same full window are answered alike. -/
theorem decode_congr (full : start + maxLength ≤ a.size)
    (same : windowAt a start = windowAt b start) : decode a start = decode b start := by
  cases answer : decode a start with
  | ok span =>
    rw [decode_eq_ok_iff, same] at answer
    exact (decode_eq_ok_iff.2 answer).symm
  | error reason =>
    obtain ⟨halt, halted, rfl⟩ := decode_eq_error_iff.1 answer
    refine (decode_eq_error_iff.2 ⟨halt, same ▸ halted, ?_⟩).symm
    cases halt with
    | broken reason => rfl
    | wants length =>
      have short := length_lt_of_ofWindow halted
      rw [length_windowAt] at short
      have long : maxLength < length := by omega
      rw [rejection_of_lt long, rejection_of_lt long]

theorem windowAt_congr (agree : ∀ k < maxLength, a.toList[start + k]? = b.toList[start + k]?) :
    windowAt a start = windowAt b start := by
  rw [windowAt_eq, windowAt_eq]
  refine List.ext_getElem? fun k => ?_
  by_cases within : k < maxLength
  · rw [List.getElem?_take_of_lt within, List.getElem?_take_of_lt within, List.getElem?_drop,
      List.getElem?_drop, agree k within]
  · rw [List.getElem?_take_eq_none (by omega), List.getElem?_take_eq_none (by omega)]

end

/-! ## Code in front -/

/-- The span behind `n` more bytes of code. -/
def Span.shift (n : Nat) (s : Span) : Span := { s with start := n + s.start }

/-- The rejection behind `n` more bytes of code. -/
def Rejection.shift (n : Nat) : Rejection → Rejection
  | .truncated o => .truncated { o with offset := n + o.offset, available := n + o.available }
  | reason => reason

theorem Rejection.IsRule.shift_eq {reason : Rejection} (h : reason.IsRule) (n : Nat) :
    reason.shift n = reason := by
  cases reason with
  | truncated o => cases h
  | _ => rfl

theorem Span.shift_zero (s : Span) : s.shift 0 = s := by
  rw [shift, Nat.zero_add]

theorem Span.shift_shift (m n : Nat) (s : Span) : (s.shift n).shift m = s.shift (m + n) := by
  rw [shift, shift, shift, Nat.add_assoc]

/-- Code in front moves what is found, and nothing else. -/
theorem decode_append_right_of_ok (a : View) {b : View} {start : Nat} {span : Span}
    (h : decode b start = .ok span) :
    decode (a ++ b) (a.size + start) = .ok (span.shift a.size) := by
  rw [decode_eq_ok_iff] at h ⊢
  obtain ⟨i, accepted, rfl⟩ := h
  rw [windowAt_append_right]
  exact ⟨i, accepted, rfl⟩

/-- Code in front moves what a `truncated` rejection says, and nothing else. -/
theorem decode_append_right_of_error (a : View) {b : View} {start : Nat} {reason : Rejection}
    (h : decode b start = .error reason) :
    decode (a ++ b) (a.size + start) = .error (reason.shift a.size) := by
  rw [decode_eq_error_iff] at h ⊢
  obtain ⟨halt, halted, rfl⟩ := h
  rw [windowAt_append_right]
  refine ⟨halt, halted, ?_⟩
  cases halt with
  | broken reason => exact (isRule_of_ofWindow halted).shift_eq _
  | wants length =>
    rcases Nat.lt_or_ge maxLength length with long | short
    · rw [rejection_of_lt long, rejection_of_lt long]
      rfl
    · rw [rejection_of_le short, rejection_of_le short, View.size_append]
      rfl

/-! ## Both ends -/

/-- **Locality.** Code added at the end changes no answer but `truncated`. Two codes that have
fifteen bytes from an offset on, and the same ones, are answered alike there, and not by
`truncated`. -/
theorem decode_local :
    (∀ (code more : View) (start : Nat), (∀ o, decode code start ≠ .error (.truncated o)) →
      decode (code ++ more) start = decode code start) ∧
    (∀ (a b : View) (start : Nat), start + maxLength ≤ a.size → start + maxLength ≤ b.size →
      (∀ k < maxLength, a.toList[start + k]? = b.toList[start + k]?) →
      decode a start = decode b start ∧ ∀ o, decode a start ≠ .error (.truncated o)) :=
  ⟨fun _ more _ h => decode_append h more,
    fun _ _ _ full _ agree => ⟨decode_congr full (windowAt_congr agree), decode_ne_truncated full⟩⟩

theorem decode_local_nops :
    decode (⟨#[0x90]⟩ ++ ⟨#[0xe8]⟩) 0 = decode ⟨#[0x90]⟩ 0 ∧
    decode ⟨Array.replicate 15 0x90⟩ 0 = decode ⟨Array.replicate 15 0x90 ++ #[0xe8]⟩ 0 := by
  have nop : decode ⟨#[0x90]⟩ 0 =
      .ok ⟨⟨1, false, false, false, .oneByte, 0x90, none⟩, 0⟩ := by decide +kernel
  refine ⟨decode_local.1 _ _ _ fun o => ?_, (decode_local.2 _ _ _ ?_ ?_ ?_).1⟩
  · rw [nop]
    exact nofun
  all_goals decide

end CodeSpans.X86
