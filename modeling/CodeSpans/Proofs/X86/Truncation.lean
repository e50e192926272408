import CodeSpans.Proofs.X86.Locality

/-!
# Instructions that are cut short

A `truncated` rejection says how many bytes the instruction has at least. That number is sound: no
code that goes on from the bytes there are has a shorter instruction (`length_le_of_decode_append`).
And it is given wherever an instruction is cut: code that ends within an instruction is answered by
`truncated` and by nothing else (`decode_eq_truncated_of_cut`). Both come of what is said of a
window: what an instruction does not reach has no part in it (`ofWindow_take_of_ok`), and a demand
stays until the window has as many bytes.
-/

namespace CodeSpans.X86

section OfWindow

variable {window more : List UInt8} {i : Instruction} {length : Nat}

/-- An instruction is still there when the window is cut behind it. -/
theorem ofWindow_take_of_ok (h : Instruction.ofWindow window = .ok i)
    (fits : window.length ≤ maxLength) {n : Nat} (enough : i.length.toNat ≤ n) :
    Instruction.ofWindow (window.take n) = .ok i := by
  rcases ofWindow_eq_ok_iff.1 h with ⟨whole, rfl⟩ | ⟨cut, e, wf, within, rfl⟩
  · have marker : branchMarker <+: window.take n := List.prefix_take_iff.2 ⟨whole, enough⟩
    exact ofWindow_of_marker marker
  · have same := e.instruction_length_toNat (Nat.le_trans within.length_le fits)
    have notMarker : ¬ branchMarker <+: window.take n := by
      intro whole
      exact cut (whole.trans (List.take_prefix n window))
    refine ofWindow_eq_ok_iff.2 (.inr ⟨notMarker, e, wf, ?_, rfl⟩)
    exact List.prefix_take_iff.2 ⟨within, same ▸ enough⟩

/-- No instruction that goes on from a window is shorter than what the window's end demands. -/
theorem le_length_of_ofWindow_append (h : Instruction.ofWindow window = .error (.wants length))
    (h' : Instruction.ofWindow (window ++ more) = .ok i)
    (fits : (window ++ more).length ≤ maxLength) : length ≤ i.length.toNat := by
  by_contra short
  -- cut behind the instruction, or at the end of the first window if that is further on
  have missing := length_lt_of_ofWindow h
  have enough : i.length.toNat ≤ window.length + (i.length.toNat - window.length) := by omega
  have found := ofWindow_take_of_ok h' fits enough
  rw [List.take_length_add_append] at found
  have few : window.length + (more.take (i.length.toNat - window.length)).length < length := by
    have := List.length_take_le (i.length.toNat - window.length) more
    omega
  rw [ofWindow_append_of_wants h few] at found
  cases found

end OfWindow

section

variable {code : View} {start : Nat}

theorem decode_eq_truncated_iff {o : Overrun} :
    decode code start = .error (.truncated o) ↔
      ∃ length, Instruction.ofWindow (windowAt code start) = .error (.wants length) ∧
        length ≤ maxLength ∧ o = ⟨start, length, code.size⟩ := by
  rw [decode_eq_error_iff_wants id]
  refine exists_congr fun length => and_congr_right fun _ => ?_
  rcases Nat.lt_or_ge maxLength length with long | short
  · rw [rejection_of_lt long]
    exact iff_of_false nofun fun h => absurd h.1 (Nat.not_le.2 long)
  · rw [rejection_of_le short, Rejection.truncated.injEq, and_iff_right short]

/-- What `truncated` demands is no more than any instruction has that the code can go on to. -/
theorem length_le_of_decode_append {o : Overrun} (cut : decode code start = .error (.truncated o))
    {more : View} {span : Span} (whole : decode (code ++ more) start = .ok span) :
    o.length ≤ span.length.toNat := by
  obtain ⟨length, halted, -, rfl⟩ := decode_eq_truncated_iff.1 cut
  obtain ⟨i, found, rfl⟩ := decode_eq_ok_iff.1 whole
  obtain ⟨bytes, grown⟩ := windowAt_append code more start
  have fits := length_windowAt_le (code ++ more) start
  rw [grown] at found fits
  exact le_length_of_ofWindow_append halted found fits

/-- Code that ends within an instruction is answered by `truncated`. -/
theorem decode_eq_truncated_of_cut {more : View} {span : Span}
    (whole : decode (code ++ more) start = .ok span) (cut : code.size < span.next) :
    ∃ length ≤ span.length.toNat,
      decode code start = .error (.truncated ⟨start, length, code.size⟩) := by
  by_cases stable : ∀ o, decode code start ≠ .error (.truncated o)
  · -- any other answer would be that of the whole code
    have same := decode_append stable more
    rw [whole] at same
    have within := (decode_bounds same.symm).2.2.2
    omega
  · push Not at stable
    obtain ⟨o, answer⟩ := stable
    have demand := length_le_of_decode_append answer whole
    obtain ⟨length, -, -, rfl⟩ := decode_eq_truncated_iff.1 answer
    exact ⟨length, demand, answer⟩

end

/-- **Truncation, exactly.** A `truncated` rejection names the place, the size of the code and a
number of bytes that is possible for an instruction, goes beyond the code, and is exceeded by no
instruction that the code can go on to. Of code that has an instruction, every part from the front
that ends within the instruction is answered so, with no more bytes than the instruction has. -/
theorem decode_truncates (code : View) (start : Nat) :
    (∀ o, decode code start = .error (.truncated o) →
      o.offset = start ∧ o.available = code.size ∧ 1 ≤ o.length ∧ o.length ≤ maxLength ∧
      code.size < start + o.length ∧
      ∀ more span, decode (code ++ more) start = .ok span → o.length ≤ span.length.toNat) ∧
    (∀ span, decode code start = .ok span → ∀ cut, start ≤ cut → cut < span.next →
      ∃ length ≤ span.length.toNat, decode (.ofList (code.toList.take cut)) start =
        .error (.truncated ⟨start, length, cut⟩)) := by
  constructor
  · intro o answer
    obtain ⟨length, halted, short, rfl⟩ := decode_eq_truncated_iff.1 answer
    have beyond := length_lt_of_ofWindow halted
    rw [length_windowAt] at beyond
    refine ⟨rfl, rfl, ?_, short, ?_, ?_⟩
    · show 1 ≤ length
      omega
    · show code.size < start + length
      omega
    · intro more span whole
      exact length_le_of_decode_append answer whole
  · intro span answer cut _ before
    have within := (decode_bounds answer).2.2.2
    let front := View.ofList (code.toList.take cut)
    let behind := View.ofList (code.toList.drop cut)
    have parts : front ++ behind = code := by
      have bytes : (front ++ behind).toList = code.toList := by
        rw [View.toList_append]
        exact List.take_append_drop cut code.toList
      exact congrArg View.mk (Array.toList_inj.1 bytes)
    have size : front.size = cut := by
      rw [← View.length_toList, View.toList_ofList, List.length_take, View.length_toList]
      omega
    rw [← parts] at answer
    have answered := decode_eq_truncated_of_cut answer (by rwa [size])
    rwa [size] at answered

/-- A near call that is cut behind its opcode asks for no more than the five bytes it goes on to
have, and one that is there in full is answered so where it is cut. -/
theorem decode_truncates_near_call :
    (∃ o, decode ⟨#[0x90, 0xe8]⟩ 1 = .error (.truncated o) ∧ o.length ≤ 5) ∧
    (∃ length ≤ 5, decode ⟨#[0x90, 0xe8, 1]⟩ 1 = .error (.truncated ⟨1, length, 3⟩)) := by
  have short : decode ⟨#[0x90, 0xe8]⟩ 1 = .error (.truncated ⟨1, 5, 2⟩) := by decide +kernel
  have whole : decode (⟨#[0x90, 0xe8]⟩ ++ ⟨#[1, 2, 3, 4]⟩) 1 =
      .ok ⟨⟨5, false, false, false, .oneByte, 0xe8, none⟩, 1⟩ := by decide +kernel
  have demand := ((decode_truncates _ _).1 _ short).2.2.2.2.2 _ _ whole
  exact ⟨⟨_, short, demand⟩, (decode_truncates _ _).2 _ whole 3 (by decide) (by decide)⟩

end CodeSpans.X86
