import CodeSpans.Proofs.X86.Stages

/-!
# What the stages ask for

A reader is `Bounded` by what it takes and what it asks for, both counted from where it starts.
Every stage is, up to the immediate: together the stages before it ask for no more than fifteen
bytes. So a demand for more is one for an immediate, behind all that stands before it
(`readStages_eq_wants_iff`).
-/

namespace CodeSpans.X86

namespace Reader

open TakesBytes

variable {α β : Type} {s s' : Ahead} {r : Reader α} {takes asks length : Nat}

/-- The reader takes at most `takes` bytes, and asks for at most `asks` in all. -/
structure Bounded (r : Reader α) (takes asks : Nat) : Prop where
  ok : ∀ {s a s'}, r s = .ok (a, s') → s'.taken ≤ s.taken + takes
  wants : ∀ {s length}, r s = .error (.wants length) → length ≤ s.taken + asks

theorem bounded_pure (a : α) : Bounded (pure a : Reader α) takes asks where
  ok h := by
    obtain ⟨-, rfl⟩ := pure_eq_ok_iff.1 h
    exact Nat.le_add_right _ _
  wants h := by cases h

theorem bounded_refuse (reason : Rejection) : Bounded (refuse reason : Reader α) takes asks where
  ok h := by cases h
  wants h := by cases h

theorem bounded_peek : Bounded (peek : Reader UInt8) 0 1 where
  ok h := by
    obtain ⟨rfl, -⟩ := peek_eq_ok_iff.1 h
    exact Nat.le_refl _
  wants h := by
    simp only [peek] at h
    split at h
    · cases h
      exact Nat.le_refl _
    · cases h

theorem skip_eq_wants_iff {count : Nat} :
    (skip count : Reader Unit) s = .error (.wants length) ↔
      s.rest.length < count ∧ length = s.taken + count := by
  simp only [skip]
  split
  · next within =>
    exact ⟨nofun, fun h => absurd h.1 (Nat.not_lt.2 within)⟩
  · next beyond =>
    rw [and_iff_right (Nat.not_le.1 beyond), Except.error.injEq, Halt.wants.injEq, eq_comm]

theorem bounded_skip (count : Nat) : Bounded (skip count : Reader Unit) count count where
  ok h := by
    obtain ⟨word, rfl, took⟩ := skip_eq_ok_iff.1 h
    exact Nat.le_of_eq took.2
  wants h := Nat.le_of_eq (skip_eq_wants_iff.1 h).2

theorem Bounded.mono {m n : Nat} (h : Bounded r m n) (mTakes : m ≤ takes) (nAsks : n ≤ asks) :
    Bounded r takes asks where
  ok h' := Nat.le_trans (h.ok h') (Nat.add_le_add_left mTakes _)
  wants h' := Nat.le_trans (h.wants h') (Nat.add_le_add_left nAsks _)

theorem Bounded.bind {f : α → Reader β} {m n : Nat} (hr : Bounded r takes asks)
    (hf : ∀ a, Bounded (f a) m n) : Bounded (r >>= f) (takes + m) (max asks (takes + n)) where
  ok h := by
    obtain ⟨a, s₁, h₁, h₂⟩ := bind_eq_ok_iff.1 h
    have first := hr.ok h₁
    have second := (hf a).ok h₂
    omega
  wants h := by
    obtain h₁ | ⟨a, s₁, h₁, h₂⟩ := bind_eq_error_iff.1 h
    · have first := hr.wants h₁
      omega
    · have first := hr.ok h₁
      have second := (hf a).wants h₂
      omega

theorem bounded_take : Bounded (take : Reader UInt8) 1 1 := by
  rw [take_eq_peek_skip]
  exact bounded_peek.bind fun b => (bounded_skip 1).bind (m := 0) (n := 0) fun _ => bounded_pure b

/-- A demand beyond what a reader asks for comes from what follows it. -/
theorem Bounded.bind_eq_wants_iff {f : α → Reader β} (hr : Bounded r takes asks)
    (long : s.taken + asks < length) :
    (r >>= f) s = .error (.wants length) ↔
      ∃ a s', r s = .ok (a, s') ∧ f a s' = .error (.wants length) := by
  rw [bind_eq_error_iff]
  refine or_iff_right fun h => ?_
  have short := hr.wants h
  omega

end Reader

open TakesBytes Reader Ahead

variable {s s' : Ahead} {length : Nat}

/-! ## Up to the immediate -/

theorem bounded_readPrefixes (room : Nat) (seen : Prefixes) :
    Bounded (readPrefixes Reader room seen) room (room + 1) := by
  induction room generalizing seen with
  | zero =>
    unfold readPrefixes
    refine bounded_peek.bind (m := 0) (n := 0) fun b => ?_
    rw [lookup_bind]
    cases LegacyPrefix.ofByte? b with
    | none => exact bounded_pure _
    | some p => exact bounded_refuse _
  | succ room ih =>
    unfold readPrefixes
    refine (bounded_peek.bind (m := room + 1) (n := room + 2) fun b => ?_).mono
      (by omega) (by omega)
    rw [lookup_bind]
    cases LegacyPrefix.ofByte? b with
    | none => exact bounded_pure _
    | some p => exact ((bounded_skip 1).bind fun _ => ih _).mono (by omega) (by omega)

theorem bounded_readRex : Bounded (readRex Reader) 1 2 := by
  unfold readRex
  refine bounded_peek.bind (m := 1) (n := 2) fun b => ?_
  split
  · refine (bounded_skip 1).bind (m := 0) (n := 1) fun _ => ?_
    refine bounded_peek.bind (m := 0) (n := 0) fun next => ?_
    rw [lookup_bind]
    split
    · exact bounded_refuse _
    · exact bounded_pure _
  · exact bounded_pure _

theorem bounded_readEscape : Bounded (readEscape Reader) 2 2 := by
  unfold readEscape
  refine bounded_peek.bind (m := 2) (n := 2) fun b => ?_
  split
  · refine (bounded_skip 1).bind (m := 1) (n := 1) fun _ => ?_
    refine bounded_peek.bind (m := 1) (n := 1) fun second => ?_
    split
    · exact (bounded_skip 1).bind (m := 0) (n := 0) fun _ => bounded_pure _
    · split
      · exact (bounded_skip 1).bind (m := 0) (n := 0) fun _ => bounded_pure _
      · exact bounded_pure _
  · exact bounded_pure _

theorem displacementWidth_le (mode base : UInt8) : displacementWidth mode base ≤ 4 := by
  unfold displacementWidth
  split_ifs <;> decide

theorem bounded_skipAddress (m : ModRM) : Bounded (skipAddress Reader m) 5 5 := by
  unfold skipAddress
  split
  · exact bounded_pure _
  · split
    · refine bounded_take.bind (m := 4) (n := 4) fun sib => ?_
      have short := displacementWidth_le m.mode (sib &&& 7)
      exact (bounded_skip _).mono short short
    · have short := displacementWidth_le m.mode m.rm
      exact (bounded_skip _).mono (by omega) (by omega)

theorem bounded_readModRM (use : ModRMUse) : Bounded (readModRM Reader use) 6 6 := by
  cases use with
  | absent => exact bounded_pure _
  | registers => exact bounded_take.bind (m := 5) (n := 5) fun _ => bounded_pure _
  | addressing =>
    refine bounded_take.bind (m := 5) (n := 5) fun _ => ?_
    exact (bounded_skipAddress _).bind (m := 0) (n := 0) fun _ => bounded_pure _

theorem bounded_readSelect (v : VectorEscape) : Bounded (v.readSelect Reader) 3 3 := by
  cases v with
  | vex2 => exact (bounded_skip 1).bind (m := 2) (n := 2) fun _ => bounded_pure _
  | vex3 =>
    refine bounded_take.bind (m := 2) (n := 2) fun _ => ?_
    exact (bounded_skip 1).bind (m := 1) (n := 1) fun _ => bounded_pure _
  | evex =>
    refine bounded_take.bind (m := 2) (n := 2) fun _ => ?_
    exact (bounded_skip 2).bind (m := 0) (n := 0) fun _ => bounded_pure _

/-! ## Demands for an immediate -/

theorem readTail_eq_wants_iff {layout : Layout} {sizing : Option ModRM → Sizing}
    (long : s.taken + 6 < length) :
    readTail Reader layout sizing s = .error (.wants length) ↔
      ∃ (operand : Operand) (s' : Ahead), operand.Fits layout.modrm ∧ s.Takes operand.bytes s' ∧
        s'.rest.length < layout.immediate.width (sizing operand.modrm) ∧
          length = s'.taken + layout.immediate.width (sizing operand.modrm) := by
  rw [readTail, (bounded_readModRM _).bind_eq_wants_iff long]
  constructor
  · intro h
    obtain ⟨m, s', hm, h⟩ := h
    obtain ⟨operand, fits, rfl, takes⟩ := readModRM_eq_ok_iff.1 hm
    obtain h | ⟨_, s₂, -, h⟩ := bind_eq_error_iff.1 h
    · exact ⟨operand, s', fits, takes, skip_eq_wants_iff.1 h⟩
    · cases h
  · intro h
    obtain ⟨operand, s', fits, takes, demand⟩ := h
    refine ⟨operand.modrm, s', readModRM_eq_ok_iff.2 ⟨operand, fits, rfl, takes⟩, ?_⟩
    exact bind_eq_error_iff.2 (.inl (skip_eq_wants_iff.2 demand))

/-- The body of an encoding up to the immediate. -/
def LegacyEncoding.bodyFront (e : LegacyEncoding) : List UInt8 :=
  e.map.escape ++ e.opcode :: e.operand.bytes

/-- The body of an encoding up to the immediate. -/
def VectorEncoding.bodyFront (e : VectorEncoding) : List UInt8 :=
  e.escape.byte :: (e.payload ++ e.opcode :: e.operand.bytes)

/-- All that stands before the immediate of an encoding. -/
def Encoding.front : Encoding → List UInt8
  | .legacy e =>
    e.seen.map LegacyPrefix.byte ++ (e.rex.map Rex.byte).toList ++ e.bodyFront
  | .vector e => e.seen.map LegacyPrefix.byte ++ e.bodyFront

def Encoding.immediate : Encoding → List UInt8
  | .legacy e => e.immediate
  | .vector e => e.immediate

theorem Encoding.bytes_eq (e : Encoding) : e.bytes = e.front ++ e.immediate := by
  cases e with
  | legacy e => simp [bytes, LegacyEncoding.bytes, LegacyEncoding.body, front,
      LegacyEncoding.bodyFront, immediate]
  | vector e => simp [bytes, VectorEncoding.bytes, VectorEncoding.body, front,
      VectorEncoding.bodyFront, immediate]

theorem readLegacy_eq_wants_iff {seen : Prefixes} {rex : Option Rex}
    (long : s.taken + 9 < length) :
    readLegacy Reader seen rex s = .error (.wants length) ↔ ∃ (e : LegacyEncoding) (s' : Ahead),
      e.seen = seen ∧ e.rex = rex ∧ e.Defined ∧ s.Takes e.bodyFront s' ∧
        s'.rest.length < e.immediate.length ∧ length = s'.taken + e.immediate.length := by
  rw [readLegacy, bounded_readEscape.bind_eq_wants_iff (by omega)]
  constructor
  · intro h
    obtain ⟨map, s₁, hmap, h⟩ := h
    have escaped := bounded_readEscape.ok hmap
    rw [bounded_take.bind_eq_wants_iff (by omega)] at h
    obtain ⟨opcode, s₂, hop, h⟩ := h
    have opcodeTaken := bounded_take.ok hop
    rw [lookup_bind] at h
    cases hl : map.layout? opcode with
    | none =>
      rw [hl] at h
      cases h
    | some layout =>
      rw [hl] at h
      obtain ⟨operand, s', fits, takes, demand⟩ :=
        (readTail_eq_wants_iff (by omega)).1 (bind_pure_eq_error_iff.1 h)
      -- the bytes of the immediate do not matter, so it may be all zeros
      let immediate := List.replicate (layout.immediate.width (.of seen rex operand.modrm)) (0 : UInt8)
      have width : immediate.length = layout.immediate.width (.of seen rex operand.modrm) :=
        List.length_replicate
      have took := (takes_of_readEscape hmap).trans ((take_eq_ok_iff.1 hop).trans takes)
      exact ⟨⟨seen, rex, map, opcode, operand, immediate⟩, s', rfl, rfl, ⟨layout, hl, fits, width⟩,
        took, width ▸ demand⟩
  · rintro ⟨⟨seen, rex, map, opcode, operand, immediate⟩, s', rfl, rfl, ⟨layout, hl, fits, width⟩,
      takes, demand⟩
    obtain ⟨s₁, escape, rest⟩ := takes_append_iff.1 takes
    obtain ⟨s₂, here, behind⟩ := takes_cons_iff.1 rest
    have hescape : readEscape Reader s = .ok (map, s₁) :=
      readEscape_eq_ok escape (here.next (OpcodeMap.endsEscape_of_layout? hl))
    have escaped := bounded_readEscape.ok hescape
    have opcodeTaken := here.2
    refine ⟨map, s₁, hescape, ?_⟩
    rw [take_bind here, lookup_bind, hl]
    refine bind_pure_eq_error_iff.2 ((readTail_eq_wants_iff ?_).2
      ⟨operand, s', fits, behind, width ▸ demand⟩)
    rw [List.length_singleton] at opcodeTaken
    omega

theorem readVector_eq_wants_iff {seen : Prefixes} {v : VectorEscape} (here : s.Next (v.byte = ·))
    (long : s.taken + 11 < length) :
    readVector Reader seen v s = .error (.wants length) ↔ ∃ (e : VectorEncoding) (s' : Ahead),
      e.seen = seen ∧ e.escape = v ∧ e.escape.Selects e.payload e.map ∧ e.Defined ∧
        s.Takes e.bodyFront s' ∧
          s'.rest.length < e.immediate.length ∧ length = s'.taken + e.immediate.length := by
  rw [readVector, (bounded_skip 1).bind_eq_wants_iff (by omega)]
  constructor
  · intro h
    obtain ⟨_, s₁, hs, h⟩ := h
    have escaped := (bounded_skip 1).ok hs
    have first := (skip_one_eq_ok_iff here).1 hs
    rw [(bounded_readSelect v).bind_eq_wants_iff (by omega)] at h
    obtain ⟨select, s₂, hselect, h⟩ := h
    have selected := (bounded_readSelect v).ok hselect
    cases hmap : VectorEscape.map? select with
    | none =>
      rw [hmap] at h
      cases h
    | some map =>
      obtain ⟨payload, selects, payloadTaken⟩ := readSelect_eq_ok_iff.1 ⟨select, hselect, hmap⟩
      simp only [hmap] at h
      rw [bounded_take.bind_eq_wants_iff (by omega)] at h
      obtain ⟨opcode, s₃, hop, h⟩ := h
      have opcodeTaken := bounded_take.ok hop
      rw [lookup_bind] at h
      cases hl : map.vectorLayout? opcode with
      | none =>
        rw [hl] at h
        cases h
      | some layout =>
        rw [hl] at h
        obtain ⟨operand, s', fits, takes, demand⟩ :=
          (readTail_eq_wants_iff (by omega)).1 (bind_pure_eq_error_iff.1 h)
        let immediate := List.replicate (layout.immediate.width (.of [] none none)) (0 : UInt8)
        have width : immediate.length = layout.immediate.width (.of [] none none) :=
          List.length_replicate
        have took := first.trans (payloadTaken.trans ((take_eq_ok_iff.1 hop).trans takes))
        exact ⟨⟨seen, v, payload, map, opcode, operand, immediate⟩, s', rfl, rfl, selects,
          ⟨layout, hl, fits, width⟩, took, width ▸ demand⟩
  · rintro ⟨⟨seen, v, payload, map, opcode, operand, immediate⟩, s', rfl, rfl, selects,
      ⟨layout, hl, fits, width⟩, takes, demand⟩
    obtain ⟨s₁, first, rest⟩ := takes_cons_iff.1 takes
    obtain ⟨s₂, second, rest⟩ := takes_append_iff.1 rest
    obtain ⟨s₃, third, behind⟩ := takes_cons_iff.1 rest
    obtain ⟨select, hselect, hmap⟩ := readSelect_eq_ok_iff.2 ⟨payload, selects, second⟩
    have selected := (bounded_readSelect v).ok hselect
    have escaped := first.2
    have opcodeTaken := third.2
    refine ⟨(), s₁, (skip_one_eq_ok_iff here).2 first, ?_⟩
    rw [bind_of_ok hselect, hmap]
    simp only [take_bind third, lookup_bind, hl]
    refine bind_pure_eq_error_iff.2 ((readTail_eq_wants_iff ?_).2
      ⟨operand, s', fits, behind, width ▸ demand⟩)
    rw [List.length_singleton] at escaped opcodeTaken
    omega

/-- A demand behind some bytes, as one of the place before them. -/
theorem exists_takes_demand_iff {front : List UInt8} {count : Nat} :
    (∃ s', s.Takes front s' ∧ s'.rest.length < count ∧ length = s'.taken + count) ↔
      front <+: s.rest ∧ s.rest.length < front.length + count ∧
        length = s.taken + (front.length + count) := by
  constructor
  · intro h
    obtain ⟨s', takes, beyond, rfl⟩ := h
    refine ⟨exists_takes_iff.1 ⟨s', takes⟩, ?_, ?_⟩
    · rw [takes.1, List.length_append]
      omega
    · rw [takes.2, Nat.add_assoc]
  · intro h
    obtain ⟨there, beyond, rfl⟩ := h
    obtain ⟨s', takes⟩ := exists_takes_iff.2 there
    rw [takes.1, List.length_append] at beyond
    refine ⟨s', takes, by omega, ?_⟩
    rw [takes.2, Nat.add_assoc]

/-- **A demand for more than fifteen bytes is one for an immediate** that is not there in full, of a
well-formed encoding whose other parts are there. -/
theorem readStages_eq_wants_iff (long : s.taken + maxLength < length) :
    readStages Reader s = .error (.wants length) ↔ ∃ e : Encoding, e.WellFormed ∧
      e.front <+: s.rest ∧ s.rest.length < e.bytes.length ∧ length = s.taken + e.bytes.length := by
  unfold maxLength at long
  simp only [Encoding.bytes_eq, List.length_append, ← exists_takes_demand_iff]
  constructor
  · intro h
    have few : s.taken + (maxPrefixes + 1) < length := by
      unfold maxPrefixes
      omega
    rw [readStages, (bounded_readPrefixes _ _).bind_eq_wants_iff few] at h
    obtain ⟨seen, s₁, hprefixes, h⟩ := h
    obtain ⟨more, rfl, few, prefixes⟩ := takes_of_readPrefixes hprefixes
    have prefixesTaken := (bounded_readPrefixes _ _).ok hprefixes
    unfold maxPrefixes at prefixesTaken
    rw [readBehind, bounded_readRex.bind_eq_wants_iff (by omega)] at h
    obtain ⟨rex, s₂, hrex, h⟩ := h
    obtain ⟨isRex, rexTakes⟩ := takes_of_readRex hrex
    have rexTaken := bounded_readRex.ok hrex
    rw [bounded_peek.bind_eq_wants_iff (by omega)] at h
    obtain ⟨b, s₃, hb, h⟩ := h
    obtain ⟨rfl, here⟩ := peek_eq_ok_iff.1 hb
    cases hv : VectorEscape.ofByte? b with
    | none =>
      simp only [hv] at h
      obtain ⟨e, s', rfl, rfl, defined, body, demand⟩ := (readLegacy_eq_wants_iff (by omega)).1 h
      exact ⟨.legacy e, ⟨few, isRex, defined⟩, s', (prefixes.trans rexTakes).trans body, demand⟩
    | some v =>
      simp only [hv] at h
      rw [← VectorEscape.byte_of_ofByte? hv] at here
      split at h
      · cases h
      · next allowed =>
        simp only [Bool.or_eq_true, not_or, Bool.not_eq_true, Option.isSome_eq_false_iff,
          Option.isNone_iff_eq_none] at allowed
        obtain ⟨rfl, allowed⟩ := allowed
        obtain rfl := takes_nil_iff.1 rexTakes
        obtain ⟨e, s', rfl, rfl, selects, defined, body, demand⟩ :=
          (readVector_eq_wants_iff here (by omega)).1 h
        exact ⟨.vector e, ⟨few, Prefixes.refuseVector_eq_false_iff.1 allowed, selects, defined⟩,
          s', prefixes.trans body, demand⟩
  · rintro ⟨e, wf, s', takes, demand⟩
    cases e with
    | legacy e =>
      obtain ⟨s₁, before, body⟩ := takes_append_iff.1 takes
      obtain ⟨layout, hl, -, -⟩ := wf.defined
      rw [readStages_eq_readLegacy wf.few wf.isRex before (startsBody_of_layout? hl body)]
      refine (readLegacy_eq_wants_iff ?_).2 ⟨e, s', rfl, rfl, wf.defined, body, demand⟩
      have few := wf.few
      have rexShort : (e.rex.map Rex.byte).toList.length ≤ 1 := by cases e.rex <;> simp
      rw [before.2, List.length_append, List.length_map]
      unfold maxPrefixes at few
      omega
    | vector e =>
      obtain ⟨s₁, before, body⟩ := takes_append_iff.1 takes
      rw [readStages_eq_readVector wf.few wf.allowed before body.here]
      refine (readVector_eq_wants_iff body.here ?_).2
        ⟨e, s', rfl, rfl, wf.selects, wf.defined, body, demand⟩
      have few := wf.few
      rw [before.2, List.length_map]
      unfold maxPrefixes at few
      omega

end CodeSpans.X86
