import CodeSpans.Proofs.X86.Rules

/-!
# What prefixes mean for an instruction

Of the legacy prefixes before an instruction four facts count, and on a conditional jump the last
segment override. Prefixes are alike when the four facts are the same (`Prefixes.Alike`). Every
reader that is given the prefixes then answers the same but for the hint, which is that of its own
prefixes: its run is a run of the other one with the hint put in (`Prefixes.Alike.readLegacy_eq` and
others). So where two runs of prefixes of the same length are alike, they can be exchanged
(`decode_prefixes_alike`).
-/

namespace CodeSpans.X86

open TakesBytes Reader Ahead

/-- Nothing that an instruction takes from its prefixes, the hint apart, tells them apart. -/
structure Prefixes.Alike (seen seen' : Prefixes) : Prop where
  isEmpty : seen.isEmpty = seen'.isEmpty
  operandSize : seen.contains .operandSize = seen'.contains .operandSize
  addressSize : seen.contains .addressSize = seen'.contains .addressSize
  refuseVector : seen.refuseVector = seen'.refuseVector

/-- The instruction with the hint that these prefixes give it. -/
def Instruction.hintedBy (seen : Prefixes) (i : Instruction) : Instruction :=
  { i with hint := if i.isVector then none else seen.hint? i.map i.opcode }

theorem Instruction.hintedBy_congr {seen seen' : Prefixes}
    (h : seen.lastSegment? = seen'.lastSegment?) (i : Instruction) :
    i.hintedBy seen = i.hintedBy seen' := by
  unfold hintedBy Prefixes.hint?
  rw [h]

/-! ## Readers behind alike prefixes -/

theorem Prefixes.alike_refl (seen : Prefixes) : seen.Alike seen :=
  ⟨rfl, rfl, rfl, rfl⟩

namespace Prefixes.Alike

variable {seen seen' : Prefixes}

theorem sizing_eq (alike : seen.Alike seen') (rex : Option Rex) :
    Sizing.of seen rex = Sizing.of seen' rex := by
  funext m
  unfold Sizing.of
  rw [alike.operandSize, alike.addressSize]

theorem readLegacy_eq (alike : seen.Alike seen') (rex : Option Rex) :
    readLegacy Reader seen rex = Instruction.hintedBy seen <$> readLegacy Reader seen' rex := by
  unfold readLegacy
  simp only [map_bind]
  refine bind_congr fun map => bind_congr fun opcode => ?_
  rw [lookup_bind, lookup_bind]
  cases map.layout? opcode with
  | none => rfl
  | some layout =>
    simp only [map_bind, map_pure, alike.sizing_eq, alike.isEmpty]
    rfl

theorem readVector_eq (alike : seen.Alike seen') (v : VectorEscape) :
    readVector Reader seen v = Instruction.hintedBy seen <$> readVector Reader seen' v := by
  unfold readVector
  simp only [map_bind]
  refine bind_congr fun _ => bind_congr fun select => ?_
  cases VectorEscape.map? select with
  | none => rfl
  | some map =>
    simp only [map_bind]
    refine bind_congr fun opcode => ?_
    rw [lookup_bind, lookup_bind]
    cases map.vectorLayout? opcode with
    | none => rfl
    | some layout =>
      simp only [map_bind, map_pure, alike.isEmpty]
      rfl

theorem readBehind_eq (alike : seen.Alike seen') :
    readBehind Reader seen = Instruction.hintedBy seen <$> readBehind Reader seen' := by
  unfold readBehind
  simp only [map_bind]
  refine bind_congr fun rex => bind_congr fun escape => ?_
  cases VectorEscape.ofByte? escape with
  | none => exact alike.readLegacy_eq rex
  | some v =>
    simp only [alike.refuseVector]
    split
    · rfl
    · exact alike.readVector_eq v

end Prefixes.Alike

/-! ## Windows that begin with prefixes -/

/-- Behind few prefixes, either the bytes are at their end or what follows is read. -/
theorem readStages_of_prefixes {seen : Prefixes} {s s₁ : Ahead} (few : seen.length ≤ maxPrefixes)
    (takes : s.Takes (seen.map LegacyPrefix.byte) s₁)
    (ends : s₁.rest = [] ∨ s₁.Next (LegacyPrefix.ofByte? · = none)) :
    readStages Reader s =
      if s₁.rest = [] then .error (.wants (s₁.taken + 1)) else readBehind Reader seen s₁ := by
  have reached : readPrefixes Reader maxPrefixes [] s =
      readPrefixes Reader (maxPrefixes - seen.length) seen s₁ := readPrefixes_of_takes few takes
  rw [readStages]
  rcases ends with empty | next
  · rw [readPrefixes_of_nil empty] at reached
    rw [if_pos empty]
    exact bind_eq_error_iff.2 (.inl reached)
  · rw [readPrefixes_of_next next] at reached
    obtain ⟨b, rest, some, -⟩ := next
    rw [bind_of_ok reached, if_neg (by rw [some]; exact List.cons_ne_nil b rest)]

/-- From prefixes of one length on, the state of both runs is the same. -/
theorem onWindow_readStages_of_alike {seen seen' : Prefixes} {rest : List UInt8}
    (alike : seen.Alike seen') (len : seen.length = seen'.length) (few : seen.length ≤ maxPrefixes)
    (ends : ∀ b ∈ rest.head?, LegacyPrefix.ofByte? b = none) :
    (readStages Reader).onWindow (seen.map LegacyPrefix.byte ++ rest) =
      ((readStages Reader).onWindow (seen'.map LegacyPrefix.byte ++ rest)).map
        (Instruction.hintedBy seen) := by
  have takes : ∀ ps : Prefixes, ps.length = seen.length →
      Takes ⟨0, ps.map LegacyPrefix.byte ++ rest⟩ (ps.map LegacyPrefix.byte) ⟨seen.length, rest⟩ :=
    fun ps len => ⟨rfl, by simp [len]⟩
  have ends : rest = [] ∨ Next ⟨seen.length, rest⟩ (LegacyPrefix.ofByte? · = none) := by
    cases rest with
    | nil => exact .inl rfl
    | cons b rest => exact .inr ⟨b, rest, rfl, ends b rfl⟩
  rw [← onWindow_map]
  unfold onWindow
  rw [map_apply, readStages_of_prefixes few (takes seen rfl) ends,
    readStages_of_prefixes (len ▸ few) (takes seen' len.symm) ends, alike.readBehind_eq, map_apply]
  split <;> rfl

/-! ## Runs of prefix bytes -/

theorem LegacyPrefix.byte_injective : Function.Injective LegacyPrefix.byte := by
  intro p q same
  have both := LegacyPrefix.ofByte?_byte p
  rw [same, LegacyPrefix.ofByte?_byte] at both
  exact (Option.some_inj.1 both).symm

theorem Segment.byte_injective : Function.Injective Segment.byte := by
  intro a b same
  cases a <;> cases b <;> first | rfl | exact absurd same (by decide)

/-- Bytes that are all legacy prefixes are those of some prefixes. -/
theorem exists_map_byte {bytes : List UInt8}
    (h : ∀ b ∈ bytes, (LegacyPrefix.ofByte? b).isSome) :
    ∃ seen : Prefixes, seen.map LegacyPrefix.byte = bytes := by
  induction bytes with
  | nil => exact ⟨[], rfl⟩
  | cons b bytes ih =>
    obtain ⟨p, hp⟩ := Option.isSome_iff_exists.1 (h b List.mem_cons_self)
    obtain ⟨seen, rfl⟩ := ih fun c mem => h c (List.mem_cons_of_mem b mem)
    exact ⟨p :: seen, by rw [List.map_cons, LegacyPrefix.byte_of_ofByte? hp]⟩

theorem mem_map_byte_iff {p : LegacyPrefix} {seen : Prefixes} :
    p.byte ∈ seen.map LegacyPrefix.byte ↔ p ∈ seen :=
  List.mem_map_of_injective LegacyPrefix.byte_injective

theorem refusal_iff {bytes : List UInt8} :
    (∃ b ∈ bytes, b ∈ [0xf0, 0xf2, 0xf3, 0x66]) ↔
      (∃ b ∈ bytes, b ∈ [0xf0, 0xf2, 0xf3]) ∨ 0x66 ∈ bytes := by
  constructor
  · rintro ⟨b, mem, h⟩
    by_cases narrow : b = 0x66
    · exact .inr (narrow ▸ mem)
    · exact .inl ⟨b, mem, by simpa [narrow] using h⟩
  · rintro (⟨b, mem, h⟩ | mem)
    · exact ⟨b, mem, List.mem_append_left [0x66] h⟩
    · exact ⟨0x66, mem, by decide⟩

/-- Two runs of prefix bytes say the same of operand size, address size and vector escapes. -/
structure AlikePrefixBytes (P Q : List UInt8) : Prop where
  operandSize : 0x66 ∈ P ↔ 0x66 ∈ Q
  addressSize : 0x67 ∈ P ↔ 0x67 ∈ Q
  lockOrRepeat : (∃ b ∈ P, b ∈ [0xf0, 0xf2, 0xf3]) ↔ ∃ b ∈ Q, b ∈ [0xf0, 0xf2, 0xf3]

/-- Neither the order of prefixes nor how often each stands there counts. -/
theorem AlikePrefixBytes.of_mem_iff {P Q : List UInt8} (h : ∀ b, b ∈ P ↔ b ∈ Q) :
    AlikePrefixBytes P Q where
  operandSize := h _
  addressSize := h _
  lockOrRepeat := exists_congr fun b => and_congr_left' (h b)

/-- The last byte of a segment override. -/
def lastOverride? (bytes : List UInt8) : Option UInt8 :=
  bytes.reverse.find? (· ∈ [0x2e, 0x36, 0x3e, 0x26, 0x64, 0x65])

theorem lastOverride?_map_byte (seen : Prefixes) :
    lastOverride? (seen.map LegacyPrefix.byte) = seen.lastSegment?.map Segment.byte := by
  unfold lastOverride? Prefixes.lastSegment?
  rw [← List.map_reverse]
  induction seen.reverse with
  | nil => rfl
  | cons p ps ih =>
    rw [List.map_cons, List.find?_cons, List.findSome?_cons]
    cases p with
    | segment register => cases register <;> rfl
    | _ => exact ih

/-- For the prefixes whose bytes they are, it is the same to be alike. -/
theorem AlikePrefixBytes.alike {seen seen' : Prefixes} (len : seen.length = seen'.length)
    (h : AlikePrefixBytes (seen.map LegacyPrefix.byte) (seen'.map LegacyPrefix.byte)) :
    seen.Alike seen' where
  isEmpty := by rw [Bool.eq_iff_iff, List.isEmpty_iff_length_eq_zero,
    List.isEmpty_iff_length_eq_zero, len]
  operandSize := by
    rw [Bool.eq_iff_iff, List.contains_iff_mem, List.contains_iff_mem, ← mem_map_byte_iff,
      ← mem_map_byte_iff]
    exact h.operandSize
  addressSize := by
    rw [Bool.eq_iff_iff, List.contains_iff_mem, List.contains_iff_mem, ← mem_map_byte_iff,
      ← mem_map_byte_iff]
    exact h.addressSize
  refuseVector := by
    rw [Bool.eq_iff_iff, Prefixes.refuseVector_iff, Prefixes.refuseVector_iff, refusal_iff,
      refusal_iff, h.lockOrRepeat, h.operandSize]

/-! ## Code that begins with prefixes -/

/-- The span with the hint that these prefixes give it. -/
def Span.hintedBy (seen : Prefixes) (span : Span) : Span :=
  { span with toInstruction := span.toInstruction.hintedBy seen }

theorem decode_of_many_prefixes {seen : Prefixes} (many : maxPrefixes < seen.length)
    (rest : List UInt8) :
    decode (.ofList (seen.map LegacyPrefix.byte ++ rest)) 0 = .error .tooManyPrefixes := by
  have rule : Rejection.tooManyPrefixes.IsRule := trivial
  refine (decode_eq_error_iff_breaks rule).2 ?_
  show 5 ≤ (leadingPrefixes _).length
  rw [View.toList_ofList, List.drop_zero, leadingPrefixes_append, List.length_append,
    List.length_map]
  exact Nat.le_add_right_of_le many

/-- Few prefixes are in the window whole. -/
theorem ofWindow_of_prefixes {seen : Prefixes} {rest : List UInt8} (few : seen.length ≤ maxPrefixes)
    (noMarker : ¬ branchMarker <+: seen.map LegacyPrefix.byte ++ rest) :
    Instruction.ofWindow (windowAt (.ofList (seen.map LegacyPrefix.byte ++ rest)) 0) =
      (readStages Reader).onWindow
        (seen.map LegacyPrefix.byte ++ rest.take (maxLength - seen.length)) := by
  have window : windowAt (.ofList (seen.map LegacyPrefix.byte ++ rest)) 0 =
      seen.map LegacyPrefix.byte ++ rest.take (maxLength - seen.length) := by
    have short : (seen.map LegacyPrefix.byte).length ≤ maxLength := by
      rw [List.length_map]
      exact Nat.le_trans few (by decide)
    rw [windowAt_eq, View.toList_ofList, List.drop_zero, List.take_append,
      List.take_of_length_le short, List.length_map]
  rw [window]
  refine ofWindow_of_not_marker fun marker => noMarker (marker.trans ?_)
  exact (List.prefix_append_right_inj _).2 (List.take_prefix _ _)

theorem rejection_congr {code code' : View} (size : code.size = code'.size) (halt : Halt) :
    halt.rejection code 0 = halt.rejection code' 0 := by
  cases halt with
  | broken reason => rfl
  | wants length =>
    unfold Halt.rejection
    rw [size]

/-- Where no marker stands, code behind prefixes is decoded as it is behind alike ones, their hint
put in. -/
theorem decode_eq_map_hintedBy {seen seen' : Prefixes} {rest : List UInt8}
    (alike : seen.Alike seen') (len : seen.length = seen'.length)
    (ends : ∀ b ∈ rest.head?, LegacyPrefix.ofByte? b = none)
    (noMarker : ¬ branchMarker <+: seen.map LegacyPrefix.byte ++ rest)
    (noMarker' : ¬ branchMarker <+: seen'.map LegacyPrefix.byte ++ rest) :
    decode (.ofList (seen.map LegacyPrefix.byte ++ rest)) 0 =
      (decode (.ofList (seen'.map LegacyPrefix.byte ++ rest)) 0).map (Span.hintedBy seen) := by
  rcases Nat.lt_or_ge maxPrefixes seen.length with many | few
  · rw [decode_of_many_prefixes many, decode_of_many_prefixes (len ▸ many)]
    rfl
  · have size : (View.ofList (seen.map LegacyPrefix.byte ++ rest)).size =
        (View.ofList (seen'.map LegacyPrefix.byte ++ rest)).size := by
      simp [← View.length_toList, len]
    have ends : ∀ b ∈ (rest.take (maxLength - seen.length)).head?, LegacyPrefix.ofByte? b = none := by
      rw [List.head?_take, if_neg (by unfold maxPrefixes at few; unfold maxLength; omega)]
      exact ends
    unfold decode
    rw [ofWindow_of_prefixes few noMarker, ofWindow_of_prefixes (len ▸ few) noMarker', ← len,
      onWindow_readStages_of_alike alike len few ends]
    cases (readStages Reader).onWindow
      (seen'.map LegacyPrefix.byte ++ rest.take (maxLength - seen.length)) with
    | ok i => rfl
    | error halt => exact congrArg Except.error (rejection_congr size halt)

/-- **What counts of the prefixes.** Exchange the legacy prefixes before some bytes for as many
others that say the same of operand size, address size and vector escapes, and there is the same
rejection, or the same span but for the hint; and with the same last segment override the hint is
the same too. To order prefixes anew, or to repeat others of them, moves no end of an instruction. -/
theorem decode_prefixes_alike {P Q R : List UInt8}
    (legacyP : ∀ b ∈ P, (LegacyPrefix.ofByte? b).isSome)
    (legacyQ : ∀ b ∈ Q, (LegacyPrefix.ofByte? b).isSome)
    (behind : ∀ b ∈ R.head?, LegacyPrefix.ofByte? b = none) (len : P.length = Q.length)
    (noMarkerP : ¬ branchMarker <+: P ++ R) (noMarkerQ : ¬ branchMarker <+: Q ++ R) :
    (AlikePrefixBytes P Q →
      (∃ reason, decode (.ofList (P ++ R)) 0 = .error reason ∧
        decode (.ofList (Q ++ R)) 0 = .error reason) ∨
      ∃ p q, decode (.ofList (P ++ R)) 0 = .ok p ∧ decode (.ofList (Q ++ R)) 0 = .ok q ∧
        p = { q with hint := p.hint } ∧ (lastOverride? P = lastOverride? Q → p.hint = q.hint)) ∧
    ((∀ b, b ∈ P ↔ b ∈ Q) →
      (decode (.ofList (P ++ R)) 0).map Span.next =
        (decode (.ofList (Q ++ R)) 0).map Span.next) := by
  obtain ⟨seen, rfl⟩ := exists_map_byte legacyP
  obtain ⟨seen', rfl⟩ := exists_map_byte legacyQ
  rw [List.length_map, List.length_map] at len
  constructor
  · intro bytes
    have alike := bytes.alike len
    have exchanged := decode_eq_map_hintedBy alike len behind noMarkerP noMarkerQ
    have own := decode_eq_map_hintedBy (seen'.alike_refl) rfl behind noMarkerQ noMarkerQ
    cases hq : decode (.ofList (seen'.map LegacyPrefix.byte ++ R)) 0 with
    | error reason =>
      rw [hq] at exchanged
      exact .inl ⟨reason, exchanged, rfl⟩
    | ok q =>
      rw [hq] at exchanged own
      -- behind its own prefixes, `q` has their hint already
      have same : q = q.hintedBy seen' := Except.ok.inj own
      refine .inr ⟨_, q, exchanged, rfl, rfl, fun last => ?_⟩
      rw [lastOverride?_map_byte, lastOverride?_map_byte] at last
      have last := Option.map_injective Segment.byte_injective last
      calc (q.hintedBy seen).hint = (q.hintedBy seen').hint :=
            congrArg Instruction.hint (Instruction.hintedBy_congr last q.toInstruction)
        _ = q.hint := by rw [← same]
  · intro mem
    have alike := (AlikePrefixBytes.of_mem_iff mem).alike len
    rw [decode_eq_map_hintedBy alike len behind noMarkerP noMarkerQ]
    cases decode (.ofList (seen'.map LegacyPrefix.byte ++ R)) 0 <;> rfl

/-- Which of two overrides stands last tells two conditional jumps apart by their hints, and by
nothing else. -/
theorem decode_prefixes_alike_of_jump :
    (∃ p q, decode (.ofList ([0x2e, 0x3e] ++ [0x74, 5])) 0 = .ok p ∧
      decode (.ofList ([0x3e, 0x2e] ++ [0x74, 5])) 0 = .ok q ∧
      p = { q with hint := p.hint } ∧ p.hint = some .taken ∧ q.hint = some .notTaken) ∧
    (decode (.ofList ([0x2e, 0x3e] ++ [0x74, 5])) 0).map Span.next =
      (decode (.ofList ([0x3e, 0x2e] ++ [0x74, 5])) 0).map Span.next := by
  have legacy : ∀ b ∈ ([0x2e, 0x3e] : List UInt8), (LegacyPrefix.ofByte? b).isSome := by decide +kernel
  have legacy' : ∀ b ∈ ([0x3e, 0x2e] : List UInt8), (LegacyPrefix.ofByte? b).isSome := by decide +kernel
  have swapped : ∀ b, b ∈ ([0x2e, 0x3e] : List UInt8) ↔ b ∈ [0x3e, 0x2e] := by
    intro b
    simp [or_comm]
  have behind : ∀ b ∈ ([0x74, 5] : List UInt8).head?, LegacyPrefix.ofByte? b = none := by
    decide +kernel
  obtain ⟨alike, ends⟩ :=
    decode_prefixes_alike legacy legacy' behind rfl (by decide) (by decide)
  have hint : (decode (.ofList ([0x2e, 0x3e] ++ [0x74, 5])) 0).map (·.hint) =
      .ok (some .taken) := by decide +kernel
  have hint' : (decode (.ofList ([0x3e, 0x2e] ++ [0x74, 5])) 0).map (·.hint) =
      .ok (some .notTaken) := by decide +kernel
  refine ⟨?_, ends swapped⟩
  rcases alike (.of_mem_iff swapped) with ⟨reason, rejected, -⟩ | ⟨p, q, hp, hq, same, -⟩
  · rw [rejected] at hint
    cases hint
  · rw [hp] at hint
    rw [hq] at hint'
    exact ⟨p, q, hp, hq, same, Except.ok.inj hint, Except.ok.inj hint'⟩

end CodeSpans.X86
