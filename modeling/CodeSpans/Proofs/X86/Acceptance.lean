import CodeSpans.Proofs.X86.Window

/-!
# What the decoder accepts

`decode` accepts the branch target marker and the words of the grammar, up to fifteen bytes of
them, and nothing else.
-/

namespace CodeSpans.X86

/-- **The grammar, exactly**: the code goes on with the marker, or else with a well-formed encoding
of at most fifteen bytes, and is decoded as what that is reported as. -/
theorem decode_eq_ok_iff_encoding (code : View) (start : Nat) (span : Span) :
    decode code start = .ok span ↔
      (branchMarker <+: code.toList.drop start ∧ span = { branchMarkerInstruction with start }) ∨
      (¬ branchMarker <+: code.toList.drop start ∧
        ∃ e : Encoding, e.WellFormed ∧ e.bytes.length ≤ maxLength ∧
          e.bytes <+: code.toList.drop start ∧ span = { e.instruction with start }) := by
  have marker : branchMarker <+: windowAt code start ↔ branchMarker <+: code.toList.drop start := by
    rw [windowAt_eq, List.prefix_take_iff]
    exact and_iff_left (by decide)
  rw [decode_eq_ok_iff]
  constructor
  · rintro ⟨i, accepted, rfl⟩
    obtain ⟨whole, rfl⟩ | ⟨cut, e, wf, within, rfl⟩ := ofWindow_eq_ok_iff.1 accepted
    · exact .inl ⟨marker.1 whole, rfl⟩
    · rw [windowAt_eq, List.prefix_take_iff] at within
      exact .inr ⟨mt marker.2 cut, e, wf, within.2, within.1, rfl⟩
  · rintro (⟨whole, rfl⟩ | ⟨cut, e, wf, short, within, rfl⟩)
    · exact ⟨_, ofWindow_eq_ok_iff.2 (.inl ⟨marker.2 whole, rfl⟩), rfl⟩
    · refine ⟨_, ofWindow_eq_ok_iff.2 (.inr ⟨mt marker.1 cut, e, wf, ?_, rfl⟩), rfl⟩
      rw [windowAt_eq, List.prefix_take_iff]
      exact ⟨within, short⟩

end CodeSpans.X86
