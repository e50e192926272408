import CodeSpans.Proofs.X86.Window

/-!
# The rules that bytes can break

`Breaks` says of bytes which rule of the encoding they break, if any: one clause for each rejection,
in terms of the legacy prefixes the bytes begin with (`leadingPrefixes`), of what they go on with
behind these (`GoesOn`), and of the opcode tables. How the bytes are read has no part in it. A stage
that refuses does so just where its clause holds (`readPrefixes_eq_broken_iff`,
`readRex_eq_broken_iff`, `readLegacy_eq_broken_iff`, `readVector_eq_broken_iff`); the other stages
ask for more bytes, but break no rule (`Reader.Unbroken`). Put together, the decoder rejects for a
rule just where that rule is the one broken (`decode_eq_error_iff_breaks`).
-/

namespace CodeSpans.X86

/-! ## The rules -/

/-- The legacy prefixes that some bytes begin with, all of them. -/
def leadingPrefixes (bytes : List UInt8) : List UInt8 :=
  bytes.takeWhile fun b => (LegacyPrefix.ofByte? b).isSome

/-- Behind the legacy prefixes they begin with, some bytes go on with `word`. -/
def GoesOn (bytes word : List UInt8) : Prop :=
  leadingPrefixes bytes ++ word <+: bytes

/-- There are no more legacy prefixes than may be. -/
def FewPrefixes (bytes : List UInt8) : Prop :=
  (leadingPrefixes bytes).length ≤ 4

/-- One of the legacy prefixes has its meaning taken over by vector escapes. -/
def RefusesVector (bytes : List UInt8) : Prop :=
  ∃ b ∈ leadingPrefixes bytes, b ∈ [0xf0, 0xf2, 0xf3, 0x66]

/-- The rule that a rejection is for is broken by some bytes, and no earlier one. -/
def Breaks (bytes : List UInt8) : Rejection → Prop
  | .tooManyPrefixes => 5 ≤ (leadingPrefixes bytes).length
  | .misplacedPrefix b =>
    FewPrefixes bytes ∧
      ((∃ rex, GoesOn bytes [rex, b] ∧ Rex.isRex rex ∧
          (Rex.isRex b ∨ (LegacyPrefix.ofByte? b).isSome ∨ b ∈ [0xc4, 0xc5, 0x62])) ∨
        (GoesOn bytes [b] ∧ b ∈ [0xc4, 0xc5, 0x62] ∧ RefusesVector bytes))
  | .unsupportedSelect escape select =>
    FewPrefixes bytes ∧ ¬ RefusesVector bytes ∧ select ∉ [1, 2, 3] ∧
      ((escape = 0xc4 ∧ ∃ b c, GoesOn bytes [0xc4, b, c] ∧ select = b &&& 0x1f) ∨
        (escape = 0x62 ∧ ∃ b c d, GoesOn bytes [0x62, b, c, d] ∧ select = b &&& 0x07))
  | .unknownOpcode map opcode =>
    FewPrefixes bytes ∧ ∃ rex : List UInt8, (rex = [] ∨ ∃ r, rex = [r] ∧ Rex.isRex r) ∧
      GoesOn bytes (rex ++ map.escape ++ [opcode]) ∧
      (∀ b ∈ (map.escape ++ [opcode]).head?, StartsBody b) ∧ map.EndsEscape opcode ∧
      map.layout? opcode = none
  | .truncated _ | .tooLong | .noProgress => False

/-! ## Stages that break no rule -/

open TakesBytes Reader Ahead

variable {s s' : Ahead} {reason : Rejection}

theorem unbroken_readEscape : Unbroken (readEscape Reader) := by
  unfold readEscape
  refine unbroken_peek.bind fun b => ?_
  split
  · refine (unbroken_skip 1).bind fun _ => unbroken_peek.bind fun second => ?_
    split
    · exact (unbroken_skip 1).bind fun _ => unbroken_pure _
    · split
      · exact (unbroken_skip 1).bind fun _ => unbroken_pure _
      · exact unbroken_pure _
  · exact unbroken_pure _

theorem unbroken_skipAddress (m : ModRM) : Unbroken (skipAddress Reader m) := by
  unfold skipAddress
  split
  · exact unbroken_pure _
  · split
    · exact unbroken_take.bind fun _ => unbroken_skip _
    · exact unbroken_skip _

theorem unbroken_readModRM (use : ModRMUse) : Unbroken (readModRM Reader use) := by
  cases use with
  | absent => exact unbroken_pure _
  | registers => exact unbroken_take.bind fun _ => unbroken_pure _
  | addressing =>
    exact unbroken_take.bind fun _ => (unbroken_skipAddress _).bind fun _ => unbroken_pure _

theorem unbroken_readTail (layout : Layout) (sizing : Option ModRM → Sizing) :
    Unbroken (readTail Reader layout sizing) :=
  (unbroken_readModRM _).bind fun _ => (unbroken_skip _).bind fun _ => unbroken_consumed

theorem unbroken_readSelect (v : VectorEscape) : Unbroken (v.readSelect Reader) := by
  cases v with
  | vex2 => exact (unbroken_skip 1).bind fun _ => unbroken_pure _
  | vex3 => exact unbroken_take.bind fun _ => (unbroken_skip 1).bind fun _ => unbroken_pure _
  | evex => exact unbroken_take.bind fun _ => (unbroken_skip 2).bind fun _ => unbroken_pure _

/-! ## Prefixes -/

theorem leadingPrefixes_cons (p : LegacyPrefix) (rest : List UInt8) :
    leadingPrefixes (p.byte :: rest) = p.byte :: leadingPrefixes rest := by
  simp [leadingPrefixes, LegacyPrefix.ofByte?_byte]

theorem leadingPrefixes_append (seen : Prefixes) (rest : List UInt8) :
    leadingPrefixes (seen.map LegacyPrefix.byte ++ rest) =
      seen.map LegacyPrefix.byte ++ leadingPrefixes rest := by
  induction seen with
  | nil => rfl
  | cons p seen ih => rw [List.map_cons, List.cons_append, leadingPrefixes_cons, ih, List.cons_append]

theorem leadingPrefixes_of_next (h : s.Next (LegacyPrefix.ofByte? · = none)) :
    leadingPrefixes s.rest = [] := by
  obtain ⟨b, rest, hrest, hb⟩ := h
  simp [leadingPrefixes, hrest, hb]

/-- There is no next byte, or it is no prefix, or a prefix is taken. -/
theorem Ahead.prefix_cases (s : Ahead) :
    s.rest = [] ∨ s.Next (LegacyPrefix.ofByte? · = none) ∨
      ∃ (p : LegacyPrefix) (s₁ : Ahead), s.Takes [p.byte] s₁ := by
  cases hrest : s.rest with
  | nil => exact .inl rfl
  | cons b rest =>
    cases hp : LegacyPrefix.ofByte? b with
    | none => exact .inr (.inl ⟨b, rest, hrest, hp⟩)
    | some p =>
      refine .inr (.inr ⟨p, ⟨s.taken + 1, rest⟩, ?_, rfl⟩)
      rw [hrest, LegacyPrefix.byte_of_ofByte? hp]
      rfl

section

variable {room : Nat} {seen ps : Prefixes}

theorem readPrefixes_eq_broken_iff :
    readPrefixes Reader room seen s = .error (.broken reason) ↔
      reason = .tooManyPrefixes ∧ room < (leadingPrefixes s.rest).length := by
  induction room generalizing seen s with
  | zero =>
    rcases s.prefix_cases with empty | next | ⟨p, s₁, first⟩
    · rw [readPrefixes_of_nil empty, empty]
      simp [leadingPrefixes]
    · rw [readPrefixes_of_next next, leadingPrefixes_of_next next]
      simp
    · rw [readPrefixes_zero first, first.1, List.singleton_append, leadingPrefixes_cons]
      simp [eq_comm]
  | succ room ih =>
    rcases s.prefix_cases with empty | next | ⟨p, s₁, first⟩
    · rw [readPrefixes_of_nil empty, empty]
      simp [leadingPrefixes]
    · rw [readPrefixes_of_next next, leadingPrefixes_of_next next]
      simp
    · rw [readPrefixes_succ first, ih, first.1, List.singleton_append, leadingPrefixes_cons,
        List.length_cons, Nat.succ_lt_succ_iff]

/-- Where the prefixes end, there is a byte that is none. -/
theorem next_of_readPrefixes (h : readPrefixes Reader room seen s = .ok (ps, s')) :
    s'.Next (LegacyPrefix.ofByte? · = none) := by
  induction room generalizing seen s with
  | zero =>
    rcases s.prefix_cases with empty | next | ⟨p, s₁, first⟩
    · rw [readPrefixes_of_nil empty] at h
      cases h
    · rw [readPrefixes_of_next next] at h
      cases h
      exact next
    · rw [readPrefixes_zero first] at h
      cases h
  | succ room ih =>
    rcases s.prefix_cases with empty | next | ⟨p, s₁, first⟩
    · rw [readPrefixes_of_nil empty] at h
      cases h
    · rw [readPrefixes_of_next next] at h
      cases h
      exact next
    · rw [readPrefixes_succ first] at h
      exact ih h

/-- The prefixes that are read are those that the bytes begin with. -/
theorem leadingPrefixes_of_readPrefixes (h : readPrefixes Reader room [] s = .ok (ps, s')) :
    leadingPrefixes s.rest = ps.map LegacyPrefix.byte ∧ ps.length ≤ room ∧
      s.rest = ps.map LegacyPrefix.byte ++ s'.rest := by
  obtain ⟨more, same, few, takes, -⟩ := takes_of_readPrefixes h
  obtain rfl : ps = more := same
  refine ⟨?_, few, takes⟩
  rw [takes, leadingPrefixes_append, leadingPrefixes_of_next (next_of_readPrefixes h),
    List.append_nil]

end

/-- Bytes are the prefixes they begin with, and then nothing or a byte that is none. -/
theorem Ahead.exists_behind_prefixes (s : Ahead) :
    ∃ (seen : Prefixes) (s₁ : Ahead), s.Takes (seen.map LegacyPrefix.byte) s₁ ∧
      leadingPrefixes s.rest = seen.map LegacyPrefix.byte ∧
      (s₁.rest = [] ∨ s₁.Next (LegacyPrefix.ofByte? · = none)) := by
  obtain ⟨taken, rest⟩ := s
  induction rest generalizing taken with
  | nil => exact ⟨[], ⟨taken, []⟩, takes_nil_iff.2 rfl, rfl, .inl rfl⟩
  | cons b rest ih =>
    cases hp : LegacyPrefix.ofByte? b with
    | none =>
      have next : Next ⟨taken, b :: rest⟩ (LegacyPrefix.ofByte? · = none) := ⟨b, rest, rfl, hp⟩
      exact ⟨[], _, takes_nil_iff.2 rfl, leadingPrefixes_of_next next, .inr next⟩
    | some p =>
      obtain rfl := LegacyPrefix.byte_of_ofByte? hp
      obtain ⟨seen, s₁, takes, leading, ends⟩ := ih (taken + 1)
      have first : Takes ⟨taken, p.byte :: rest⟩ [p.byte] ⟨taken + 1, rest⟩ := ⟨rfl, rfl⟩
      refine ⟨p :: seen, s₁, first.trans takes, ?_, ends⟩
      rw [leadingPrefixes_cons, leading, List.map_cons]

/-- Few prefixes are read, where something follows that is none. -/
theorem exists_readPrefixes {word : List UInt8} (few : FewPrefixes s.rest) (some : word ≠ [])
    (goes : GoesOn s.rest word) :
    ∃ seen s₁, readPrefixes Reader maxPrefixes [] s = .ok (seen, s₁) ∧ word <+: s₁.rest := by
  obtain ⟨seen, s₁, takes, leading, ends⟩ := s.exists_behind_prefixes
  unfold FewPrefixes at few
  unfold GoesOn at goes
  rw [leading, List.length_map] at few
  rw [leading, takes.1, List.prefix_append_right_inj] at goes
  have next : s₁.Next (LegacyPrefix.ofByte? · = none) := by
    rcases ends with none | next
    · rw [none] at goes
      exact absurd (List.prefix_nil.1 goes) some
    · exact next
  exact ⟨seen, s₁, readPrefixes_eq_ok few takes next, goes⟩

theorem Prefixes.refuseVector_iff (seen : Prefixes) :
    seen.refuseVector ↔ ∃ b ∈ seen.map LegacyPrefix.byte, b ∈ [0xf0, 0xf2, 0xf3, 0x66] := by
  simp only [refuseVector, List.any_eq_true, List.mem_map, exists_exists_and_eq_and]
  refine exists_congr fun p => and_congr_right fun _ => ?_
  cases p with
  | segment register => cases register <;> decide
  | _ => decide

/-- What is read behind few prefixes is what the bytes go on with. -/
theorem goesOn_of_readPrefixes {ps : Prefixes}
    (h : readPrefixes Reader maxPrefixes [] s = .ok (ps, s')) :
    FewPrefixes s.rest ∧ (∀ word, GoesOn s.rest word ↔ word <+: s'.rest) ∧
      (RefusesVector s.rest ↔ ps.refuseVector) := by
  obtain ⟨leading, few, parts⟩ := leadingPrefixes_of_readPrefixes h
  unfold FewPrefixes GoesOn RefusesVector
  rw [leading, List.length_map]
  refine ⟨few, fun word => ?_, ps.refuseVector_iff.symm⟩
  rw [parts, List.prefix_append_right_inj]

/-! ## REX and the escapes -/

theorem readRex_eq_broken_iff :
    readRex Reader s = .error (.broken reason) ↔
      ∃ rex b, [rex, b] <+: s.rest ∧ Rex.isRex rex ∧
        (Rex.isRex b ∨ (LegacyPrefix.ofByte? b).isSome) ∧ reason = .misplacedPrefix b := by
  rw [readRex, unbroken_peek.bind_eq_broken_iff]
  constructor
  · intro h
    obtain ⟨rex, s₁, hrex, h⟩ := h
    obtain ⟨rfl, here⟩ := peek_eq_ok_iff.1 hrex
    split at h
    · next isRex =>
      obtain ⟨u, s₂, hs, h⟩ := (unbroken_skip 1).bind_eq_broken_iff.1 h
      obtain ⟨b, s₃, hb, refused⟩ := unbroken_peek.bind_eq_broken_iff.1 h
      obtain ⟨rfl, b', rest, there, rfl⟩ := peek_eq_ok_iff.1 hb
      rw [lookup_bind] at refused
      have first := (skip_one_eq_ok_iff here).1 hs
      split at refused
      · next misplaced =>
        cases refused
        refine ⟨rex, b, ⟨rest, ?_⟩, isRex, by simpa using misplaced, rfl⟩
        rw [first.1, there]
        rfl
      · cases refused
    · cases h
  · intro h
    obtain ⟨rex, b, front, isRex, misplaced, rfl⟩ := h
    obtain ⟨s₂, takes⟩ := exists_takes_iff.2 front
    obtain ⟨s₁, first, second⟩ := takes_cons_iff.1 takes
    refine ⟨rex, s, peek_eq_ok_iff.2 ⟨rfl, takes.here⟩, ?_⟩
    rw [if_pos isRex, skip_one_bind first, peek_bind second.here, lookup_bind,
      if_pos (by simpa using misplaced)]
    rfl

theorem next_of_readRex {rex : Option Rex} (h : readRex Reader s = .ok (rex, s'))
    (next : s.Next (LegacyPrefix.ofByte? · = none)) :
    s'.Next fun b => Rex.isRex b = false ∧ LegacyPrefix.ofByte? b = none := by
  obtain ⟨b, here, notLegacy⟩ := next.exists
  rw [readRex, peek_bind here] at h
  split at h
  · obtain ⟨u, s₁, -, h⟩ := bind_eq_ok_iff.1 h
    obtain ⟨c, s₂, hc, answer⟩ := bind_eq_ok_iff.1 h
    obtain ⟨rfl, there⟩ := peek_eq_ok_iff.1 hc
    rw [lookup_bind] at answer
    split at answer
    · cases answer
    · next placed =>
      obtain ⟨-, rfl⟩ := pure_eq_ok_iff.1 answer
      exact there.mono fun _ same => same ▸ by simpa using placed
  · next notRex =>
    obtain ⟨-, rfl⟩ := pure_eq_ok_iff.1 h
    exact here.mono fun _ same => same ▸ ⟨by simpa using notRex, notLegacy⟩

theorem endsEscape_of_readEscape {map : OpcodeMap} {b : UInt8}
    (h : readEscape Reader s = .ok (map, s')) (next : s'.Next (b = ·)) : map.EndsEscape b := by
  have same : ∀ {s : Ahead} {c : UInt8}, s.Next (b = ·) → s.Next (c = ·) → b = c := by
    intro s c hb hc
    obtain ⟨b', rest, hrest, rfl⟩ := hb
    obtain ⟨c', rest', hrest', rfl⟩ := hc
    rw [hrest] at hrest'
    exact (List.cons.inj hrest').1
  rw [readEscape, bind_eq_ok_iff] at h
  obtain ⟨first, s₁, hfirst, h⟩ := h
  obtain ⟨rfl, here⟩ := peek_eq_ok_iff.1 hfirst
  split at h
  · simp only [bind_eq_ok_iff] at h
    obtain ⟨u, s₂, -, second, s₃, hsecond, h⟩ := h
    obtain ⟨rfl, there⟩ := peek_eq_ok_iff.1 hsecond
    split at h
    · obtain ⟨u, s₄, -, h⟩ := bind_eq_ok_iff.1 h
      obtain ⟨rfl, -⟩ := pure_eq_ok_iff.1 h
      trivial
    · next not38 =>
      split at h
      · obtain ⟨u, s₄, -, h⟩ := bind_eq_ok_iff.1 h
        obtain ⟨rfl, -⟩ := pure_eq_ok_iff.1 h
        trivial
      · next not3a =>
        obtain ⟨rfl, rfl⟩ := pure_eq_ok_iff.1 h
        rw [same next there]
        exact ⟨not38, not3a⟩
  · next notEscape =>
    obtain ⟨rfl, rfl⟩ := pure_eq_ok_iff.1 h
    rw [same next here]
    exact notEscape

theorem readLegacy_eq_broken_iff {seen : Prefixes} {rex : Option Rex} :
    readLegacy Reader seen rex s = .error (.broken reason) ↔
      ∃ map opcode, map.escape ++ [opcode] <+: s.rest ∧ map.EndsEscape opcode ∧
        map.layout? opcode = none ∧ reason = .unknownOpcode map opcode := by
  rw [readLegacy, unbroken_readEscape.bind_eq_broken_iff]
  constructor
  · intro h
    obtain ⟨map, s₁, hmap, h⟩ := h
    obtain ⟨opcode, s₂, hop, h⟩ := unbroken_take.bind_eq_broken_iff.1 h
    have opcodeTaken := take_eq_ok_iff.1 hop
    have takes := (takes_of_readEscape hmap).trans opcodeTaken
    rw [lookup_bind] at h
    cases hl : map.layout? opcode with
    | none =>
      rw [hl] at h
      cases h
      exact ⟨map, opcode, exists_takes_iff.1 ⟨s₂, takes⟩,
        endsEscape_of_readEscape hmap opcodeTaken.here, hl, rfl⟩
    | some layout =>
      rw [hl] at h
      exact absurd (bind_pure_eq_error_iff.1 h) (unbroken_readTail _ _ s₂ reason)
  · intro h
    obtain ⟨map, opcode, front, ends, hl, rfl⟩ := h
    obtain ⟨s₂, takes⟩ := exists_takes_iff.2 front
    obtain ⟨s₁, escape, here⟩ := takes_append_iff.1 takes
    refine ⟨map, s₁, readEscape_eq_ok escape (here.next ends), ?_⟩
    rw [take_bind here, lookup_bind, hl]
    rfl

/-! ## Vector escapes -/

/-- The maps that vector escapes select define every opcode. -/
theorem exists_vectorLayout? {select : UInt8} {map : OpcodeMap}
    (h : VectorEscape.map? select = some map) (opcode : UInt8) :
    ∃ layout, map.vectorLayout? opcode = some layout := by
  cases map with
  | oneByte =>
    unfold VectorEscape.map? at h
    split_ifs at h <;> cases h
  | twoByte =>
    -- the last range holds all opcodes
    have found : (vectorTwoByteRanges.find?
        fun r => r.first ≤ opcode && opcode ≤ r.last).isSome := by
      rw [List.find?_isSome]
      refine ⟨⟨0x00, 0xff, withOperand⟩, by simp [vectorTwoByteRanges], ?_⟩
      have low : (0 : UInt8) ≤ opcode := UInt8.le_iff_toNat_le.2 (Nat.zero_le _)
      have high : opcode ≤ (0xff : UInt8) := UInt8.le_iff_toNat_le.2 (Nat.le_of_lt_succ opcode.toNat_lt)
      simp [low, high]
    obtain ⟨r, hr⟩ := Option.isSome_iff_exists.1 found
    exact ⟨r.layout, by simp [OpcodeMap.vectorLayout?, layoutIn, hr]⟩
  | map38 => exact ⟨_, rfl⟩
  | map3a => exact ⟨_, rfl⟩

theorem readVector_eq_broken_iff {seen : Prefixes} {v : VectorEscape} (here : s.Next (v.byte = ·)) :
    readVector Reader seen v s = .error (.broken reason) ↔
      ∃ payload select, v.byte :: payload <+: s.rest ∧ v.Carries payload select ∧
        VectorEscape.map? select = none ∧ reason = .unsupportedSelect v.byte select := by
  rw [readVector, (unbroken_skip 1).bind_eq_broken_iff]
  constructor
  · intro h
    obtain ⟨u, s₁, hs, h⟩ := h
    have first := (skip_one_eq_ok_iff here).1 hs
    obtain ⟨select, s₂, hselect, h⟩ := (unbroken_readSelect v).bind_eq_broken_iff.1 h
    obtain ⟨payload, carries, takes⟩ := readSelect_eq_ok_iff_carries.1 hselect
    cases hmap : VectorEscape.map? select with
    | none =>
      rw [hmap] at h
      cases h
      exact ⟨payload, select, exists_takes_iff.1 ⟨s₂, first.trans takes⟩, carries, hmap, rfl⟩
    | some map =>
      rw [hmap] at h
      obtain ⟨opcode, s₃, -, h⟩ := unbroken_take.bind_eq_broken_iff.1 h
      obtain ⟨layout, hl⟩ := exists_vectorLayout? hmap opcode
      rw [lookup_bind, hl] at h
      exact absurd (bind_pure_eq_error_iff.1 h) (unbroken_readTail _ _ s₃ reason)
  · intro h
    obtain ⟨payload, select, front, carries, hmap, rfl⟩ := h
    obtain ⟨s₂, takes⟩ := exists_takes_iff.2 front
    obtain ⟨s₁, first, behind⟩ := takes_cons_iff.1 takes
    refine ⟨(), s₁, (skip_one_eq_ok_iff here).2 first, ?_⟩
    rw [bind_of_ok (readSelect_eq_ok_iff_carries.2 ⟨payload, carries, behind⟩), hmap]
    rfl

/-! ## Whole instructions -/

theorem VectorEscape.isSome_ofByte?_iff {b : UInt8} :
    (VectorEscape.ofByte? b).isSome ↔ b ∈ [0xc4, 0xc5, 0x62] := by
  unfold ofByte?
  simp only [List.find?_isSome, List.mem_cons, List.not_mem_nil, or_false, exists_eq_or_imp,
    exists_eq_left, beq_iff_eq, byte]
  grind

theorem VectorEscape.map?_eq_none_iff {select : UInt8} :
    map? select = none ↔ select ∉ [1, 2, 3] := by
  unfold map?
  split_ifs <;> simp_all

/-- An undefined opcode behind the prefixes and REX. -/
theorem breaks_of_readLegacy {seen : Prefixes} {rex : Option Rex} {s₁ s₂ : Ahead}
    (hprefixes : readPrefixes Reader maxPrefixes [] s = .ok (seen, s₁))
    (hrex : readRex Reader s₁ = .ok (rex, s₂))
    (next : s₂.Next StartsBody) (h : readLegacy Reader seen rex s₂ = .error (.broken reason)) :
    Breaks s.rest reason := by
  obtain ⟨few, goes, -⟩ := goesOn_of_readPrefixes hprefixes
  obtain ⟨isRex, rexTakes⟩ := takes_of_readRex hrex
  obtain ⟨b, here, starts⟩ := next.exists
  obtain ⟨map, opcode, front, ends, undefined, rfl⟩ := readLegacy_eq_broken_iff.1 h
  refine ⟨few, (rex.map Rex.byte).toList, ?_, (goes _).2 ?_, ?_, ends, undefined⟩
  · cases rex with
    | none => exact .inl rfl
    | some r => exact .inr ⟨r.byte, rfl, isRex r rfl⟩
  · rw [rexTakes.1, List.append_assoc, List.prefix_append_right_inj]
    exact front
  · intro c first
    rw [here.eq_of_head? front first]
    exact starts

/-- An undefined map select behind prefixes that allow vector escapes. -/
theorem breaks_of_readVector {seen : Prefixes} {v : VectorEscape} {s₁ : Ahead}
    (hprefixes : readPrefixes Reader maxPrefixes [] s = .ok (seen, s₁))
    (here : s₁.Next (v.byte = ·)) (allowed : seen.refuseVector = false)
    (h : readVector Reader seen v s₁ = .error (.broken reason)) : Breaks s.rest reason := by
  obtain ⟨few, goes, refuses⟩ := goesOn_of_readPrefixes hprefixes
  have allowed' : ¬ RefusesVector s.rest := by
    rw [refuses, allowed]
    exact Bool.false_ne_true
  obtain ⟨payload, select, front, carries, undefined, rfl⟩ := (readVector_eq_broken_iff here).1 h
  have other := VectorEscape.map?_eq_none_iff.1 undefined
  cases carries with
  | vex2 b => cases undefined
  | vex3 b c => exact ⟨few, allowed', other, .inl ⟨rfl, b, c, (goes _).2 front, rfl⟩⟩
  | evex b c d => exact ⟨few, allowed', other, .inr ⟨rfl, b, c, d, (goes _).2 front, rfl⟩⟩

theorem breaks_of_readStages (h : readStages Reader s = .error (.broken reason)) :
    Breaks s.rest reason := by
  rcases bind_eq_error_iff.1 h with h₀ | ⟨seen, s₁, hprefixes, h₁⟩
  · obtain ⟨rfl, many⟩ := readPrefixes_eq_broken_iff.1 h₀
    exact many
  obtain ⟨few, goes, refuses⟩ := goesOn_of_readPrefixes hprefixes
  rcases bind_eq_error_iff.1 h₁ with h₂ | ⟨rex, s₂, hrex, -⟩
  · obtain ⟨rex, b, front, isRex, misplaced, rfl⟩ := readRex_eq_broken_iff.1 h₂
    exact ⟨few, .inl ⟨rex, (goes _).2 front, isRex, misplaced.imp_right .inl⟩⟩
  obtain ⟨isRex, rexTakes⟩ := takes_of_readRex hrex
  have behindRex := next_of_readRex hrex (next_of_readPrefixes hprefixes)
  obtain ⟨b, here, notRex, notLegacy⟩ := behindRex.exists
  cases hv : VectorEscape.ofByte? b with
  | none =>
    have starts : s₂.Next StartsBody := here.mono fun c same => same ▸ ⟨notLegacy, notRex, hv⟩
    rw [readBehind_of_startsBody hrex starts] at h₁
    exact breaks_of_readLegacy hprefixes hrex starts h₁
  | some v =>
    obtain rfl := VectorEscape.byte_of_ofByte? hv
    rw [readBehind_of_vector hrex here] at h₁
    have isVector := VectorEscape.isSome_ofByte?_iff.1 (Option.isSome_of_eq_some hv)
    cases rex with
    | some r =>
      cases h₁
      have front : [r.byte] ++ [v.byte] <+: s₁.rest := by
        rw [rexTakes.1]
        exact (List.prefix_append_right_inj _).2 here.front
      exact ⟨few, .inl ⟨r.byte, (goes _).2 front, isRex r rfl, .inr (.inr isVector)⟩⟩
    | none =>
      obtain rfl := takes_nil_iff.1 rexTakes
      cases refused : seen.refuseVector with
      | true =>
        rw [refused] at h₁
        cases h₁
        exact ⟨few, .inr ⟨(goes _).2 here.front, isVector, refuses.2 refused⟩⟩
      | false =>
        rw [refused] at h₁
        exact breaks_of_readVector hprefixes here refused h₁

/-! Of each clause, that the stages refuse what it says. -/

section

variable (few : FewPrefixes s.rest)

include few

theorem readStages_of_misplaced_behind_rex {rex b : UInt8} (goes : GoesOn s.rest [rex, b])
    (isRex : Rex.isRex rex)
    (misplaced : Rex.isRex b ∨ (LegacyPrefix.ofByte? b).isSome ∨ b ∈ [0xc4, 0xc5, 0x62]) :
    readStages Reader s = .error (.broken (.misplacedPrefix b)) := by
  obtain ⟨seen, s₁, hprefixes, front⟩ := exists_readPrefixes few (List.cons_ne_nil _ _) goes
  by_cases isPrefix : Rex.isRex b ∨ (LegacyPrefix.ofByte? b).isSome
  · have refused := readRex_eq_broken_iff.2 ⟨rex, b, front, isRex, isPrefix, rfl⟩
    rw [readStages, bind_of_ok hprefixes]
    exact bind_eq_error_iff.2 (.inl refused)
  · have isVector : b ∈ [0xc4, 0xc5, 0x62] := by tauto
    obtain ⟨v, hv⟩ := Option.isSome_iff_exists.1 (VectorEscape.isSome_ofByte?_iff.2 isVector)
    obtain rfl := VectorEscape.byte_of_ofByte? hv
    obtain ⟨s₃, takes⟩ := exists_takes_iff.2 front
    obtain ⟨s₂, first, second⟩ := takes_cons_iff.1 takes
    have hrex : readRex Reader s₁ = .ok (some ⟨rex⟩, s₂) :=
      readRex_eq_ok (by simpa using isRex) first (second.next ⟨v.not_rex, v.not_legacy⟩)
    rw [readStages, bind_of_ok hprefixes, readBehind_of_vector hrex second.here]
    rfl

theorem readStages_of_misplaced_escape {b : UInt8} (goes : GoesOn s.rest [b])
    (isVector : b ∈ [0xc4, 0xc5, 0x62]) (refuses : RefusesVector s.rest) :
    readStages Reader s = .error (.broken (.misplacedPrefix b)) := by
  obtain ⟨v, hv⟩ := Option.isSome_iff_exists.1 (VectorEscape.isSome_ofByte?_iff.2 isVector)
  obtain rfl := VectorEscape.byte_of_ofByte? hv
  obtain ⟨seen, s₁, hprefixes, front⟩ := exists_readPrefixes few (List.cons_ne_nil _ _) goes
  obtain ⟨s₂, takes⟩ := exists_takes_iff.2 front
  have hrex : readRex Reader s₁ = .ok (none, s₁) :=
    readRex_eq_ok nofun (takes_nil_iff.2 rfl) (takes.next ⟨v.not_rex, v.not_legacy⟩)
  have refused : seen.refuseVector = true := (goesOn_of_readPrefixes hprefixes).2.2.1 refuses
  rw [readStages, bind_of_ok hprefixes, readBehind_of_vector hrex takes.here, refused]
  rfl

theorem readStages_of_select {v : VectorEscape} {payload : List UInt8} {select : UInt8}
    (goes : GoesOn s.rest (v.byte :: payload)) (allowed : ¬ RefusesVector s.rest)
    (carries : v.Carries payload select) (other : select ∉ [1, 2, 3]) :
    readStages Reader s = .error (.broken (.unsupportedSelect v.byte select)) := by
  obtain ⟨seen, s₁, hprefixes, front⟩ := exists_readPrefixes few (List.cons_ne_nil _ _) goes
  obtain ⟨s₂, takes⟩ := exists_takes_iff.2 front
  have hrex : readRex Reader s₁ = .ok (none, s₁) :=
    readRex_eq_ok nofun (takes_nil_iff.2 rfl) (takes.next ⟨v.not_rex, v.not_legacy⟩)
  have notRefused : seen.refuseVector = false :=
    Bool.eq_false_iff.2 (mt (goesOn_of_readPrefixes hprefixes).2.2.2 allowed)
  rw [readStages, bind_of_ok hprefixes, readBehind_of_vector hrex takes.here, notRefused]
  exact (readVector_eq_broken_iff takes.here).2
    ⟨payload, select, front, carries, VectorEscape.map?_eq_none_iff.2 other, rfl⟩

theorem readStages_of_undefined {rex : List UInt8} {map : OpcodeMap} {opcode : UInt8}
    (goes : GoesOn s.rest (rex ++ map.escape ++ [opcode]))
    (isRex : rex = [] ∨ ∃ r, rex = [r] ∧ Rex.isRex r)
    (starts : ∀ b ∈ (map.escape ++ [opcode]).head?, StartsBody b) (ends : map.EndsEscape opcode)
    (undefined : map.layout? opcode = none) :
    readStages Reader s = .error (.broken (.unknownOpcode map opcode)) := by
  obtain ⟨seen, s₁, hprefixes, front⟩ := exists_readPrefixes few (by simp) goes
  obtain ⟨s₃, takes⟩ := exists_takes_iff.2 front
  rw [List.append_assoc] at takes
  obtain ⟨s₂, rexTakes, body⟩ := takes_append_iff.1 takes
  have starts : s₂.Next StartsBody := body.next_of_head? (by simp) starts
  have behindRex := starts.mono fun b hb => And.intro hb.notRex hb.notLegacy
  obtain ⟨rex, hrex⟩ : ∃ r, readRex Reader s₁ = .ok (r, s₂) := by
    rcases isRex with rfl | ⟨r, rfl, isRex⟩
    · exact ⟨none, readRex_eq_ok nofun rexTakes behindRex⟩
    · exact ⟨some ⟨r⟩, readRex_eq_ok (by simpa using isRex) rexTakes behindRex⟩
  rw [readStages, bind_of_ok hprefixes, readBehind_of_startsBody hrex starts]
  exact readLegacy_eq_broken_iff.2
    ⟨map, opcode, exists_takes_iff.1 ⟨s₃, body⟩, ends, undefined, rfl⟩

end

theorem readStages_eq_broken_iff :
    readStages Reader s = .error (.broken reason) ↔ Breaks s.rest reason := by
  constructor
  · exact breaks_of_readStages
  · intro h
    cases reason with
    | tooManyPrefixes =>
      exact bind_eq_error_iff.2 (.inl (readPrefixes_eq_broken_iff.2 ⟨rfl, h⟩))
    | misplacedPrefix b =>
      obtain ⟨few, ⟨rex, goes, isRex, misplaced⟩ | ⟨goes, isVector, refuses⟩⟩ := h
      · exact readStages_of_misplaced_behind_rex few goes isRex misplaced
      · exact readStages_of_misplaced_escape few goes isVector refuses
    | unsupportedSelect escape select =>
      obtain ⟨few, allowed, other, ⟨rfl, b, c, goes, rfl⟩ | ⟨rfl, b, c, d, goes, rfl⟩⟩ := h
      · exact readStages_of_select (v := .vex3) few goes allowed (.vex3 b c) other
      · exact readStages_of_select (v := .evex) few goes allowed (.evex b c d) other
    | unknownOpcode map opcode =>
      obtain ⟨few, rex, isRex, goes, starts, ends, undefined⟩ := h
      exact readStages_of_undefined few goes isRex starts ends undefined
    | truncated o => cases h
    | tooLong => cases h
    | noProgress => cases h

/-! ## Windows of code -/

section

variable {bytes word : List UInt8} {n : Nat}

theorem leadingPrefixes_take (bytes : List UInt8) (n : Nat) :
    leadingPrefixes (bytes.take n) = (leadingPrefixes bytes).take n :=
  List.take_takeWhile.symm

theorem fewPrefixes_take_iff (wide : 4 < n) : FewPrefixes (bytes.take n) ↔ FewPrefixes bytes := by
  unfold FewPrefixes
  rw [leadingPrefixes_take, List.length_take]
  omega

variable (few : FewPrefixes bytes)

include few

theorem leadingPrefixes_take_of_few (wide : 4 < n) :
    leadingPrefixes (bytes.take n) = leadingPrefixes bytes := by
  rw [leadingPrefixes_take]
  exact List.take_of_length_le (Nat.le_trans few (Nat.le_of_lt wide))

/-- Behind few prefixes, a window holds what a short word can be compared with. -/
theorem goesOn_take_iff (wide : 4 + word.length < n) :
    GoesOn (bytes.take n) word ↔ GoesOn bytes word := by
  unfold GoesOn
  rw [leadingPrefixes_take_of_few few (by omega), List.prefix_take_iff]
  refine and_iff_left ?_
  unfold FewPrefixes at few
  rw [List.length_append]
  omega

theorem refusesVector_take_iff (wide : 4 < n) :
    RefusesVector (bytes.take n) ↔ RefusesVector bytes := by
  unfold RefusesVector
  rw [leadingPrefixes_take_of_few few wide]

end

theorem length_escape_le (map : OpcodeMap) : map.escape.length ≤ 2 := by
  cases map <;> decide

/-- All that a rule is about is in the window. -/
theorem breaks_take_iff {bytes : List UInt8} :
    Breaks (bytes.take maxLength) reason ↔ Breaks bytes reason := by
  have few_iff : FewPrefixes (bytes.take maxLength) ↔ FewPrefixes bytes :=
    fewPrefixes_take_iff (by decide)
  cases reason with
  | tooManyPrefixes =>
    unfold Breaks
    rw [leadingPrefixes_take, List.length_take]
    unfold maxLength
    omega
  | misplacedPrefix b =>
    unfold Breaks
    rw [few_iff]
    refine and_congr_right fun few => or_congr ?_ ?_
    · refine exists_congr fun rex => and_congr_left' ?_
      exact goesOn_take_iff few (by simp [maxLength])
    · rw [goesOn_take_iff few (by simp [maxLength]), refusesVector_take_iff few (by decide)]
  | unsupportedSelect escape select =>
    unfold Breaks
    rw [few_iff]
    refine and_congr_right fun few => ?_
    rw [refusesVector_take_iff few (by decide)]
    refine and_congr_right fun _ => and_congr_right fun _ => or_congr ?_ ?_
    · refine and_congr_right fun _ => exists_congr fun b => exists_congr fun c => ?_
      rw [goesOn_take_iff few (by simp [maxLength])]
    · refine and_congr_right fun _ => exists_congr fun b => exists_congr fun c =>
        exists_congr fun d => ?_
      rw [goesOn_take_iff few (by simp [maxLength])]
  | unknownOpcode map opcode =>
    unfold Breaks
    rw [few_iff]
    refine and_congr_right fun few => exists_congr fun rex => and_congr_right fun isRex => ?_
    refine and_congr_left' (goesOn_take_iff few ?_)
    have rexShort : rex.length ≤ 1 := by
      rcases isRex with rfl | ⟨r, rfl, -⟩ <;> simp
    have escapeShort := length_escape_le map
    rw [List.length_append, List.length_append, List.length_singleton]
    unfold maxLength
    omega
  | truncated o => exact Iff.rfl
  | tooLong => exact Iff.rfl
  | noProgress => exact Iff.rfl

/-- No rule is broken by the branch target marker. -/
theorem readStages_ne_error_of_marker {window : List UInt8} (h : branchMarker <+: window)
    (halt : Halt) : readStages Reader ⟨0, window⟩ ≠ .error halt := by
  have alone : readStages Reader ⟨0, branchMarker⟩ =
      .ok ({ branchMarkerInstruction with hasLegacyPrefix := true }, ⟨4, []⟩) := by
    decide +kernel
  obtain ⟨more, rfl⟩ := h
  have grown : readStages Reader ⟨0, branchMarker ++ more⟩ = _ :=
    (steady_readStages.ok alone).2 more
  rw [grown]
  exact nofun

section

variable {code : View} {start : Nat}

/-- A rule is the reason of a rejection just where it is the one that the code breaks. -/
theorem decode_eq_error_iff_breaks (rule : reason.IsRule) :
    decode code start = .error reason ↔ Breaks (code.toList.drop start) reason := by
  rw [← breaks_take_iff, ← windowAt_eq, decode_eq_error_iff]
  have stages : readStages Reader ⟨0, windowAt code start⟩ = .error (.broken reason) ↔
      Breaks (windowAt code start) reason := readStages_eq_broken_iff
  rw [← stages]
  constructor
  · intro h
    obtain ⟨halt, halted, same⟩ := h
    obtain ⟨-, halted⟩ := ofWindow_eq_error_iff.1 halted
    cases halt with
    | broken other =>
      obtain rfl : reason = other := same
      exact halted
    | wants length =>
      rcases Nat.lt_or_ge maxLength length with long | short
      · rw [rejection_of_lt long] at same
        subst same
        cases rule
      · rw [rejection_of_le short] at same
        subst same
        cases rule
  · intro h
    refine ⟨.broken reason, ofWindow_eq_error_iff.2 ⟨fun marker => ?_, h⟩, rfl⟩
    exact readStages_ne_error_of_marker marker _ h

/-- Behind a vector escape there is no opcode that its map does not define. -/
theorem not_breaks_unknownOpcode_of_vector {bytes : List UInt8} {v : VectorEscape}
    (vector : GoesOn bytes [v.byte]) (map : OpcodeMap) (opcode : UInt8) :
    ¬ Breaks bytes (.unknownOpcode map opcode) := by
  intro h
  obtain ⟨-, rex, isRex, goes, starts, -, -⟩ := h
  have front : [v.byte] <+: rex ++ map.escape ++ [opcode] :=
    (List.prefix_append_right_inj _).1
      (List.prefix_of_prefix_length_le vector goes (by simp; omega))
  obtain ⟨more, same⟩ := front
  rcases isRex with rfl | ⟨r, rfl, isRex⟩
  · have first := starts v.byte (by rw [List.nil_append] at same; rw [← same]; rfl)
    have none := first.notVector
    rw [VectorEscape.ofByte?_byte] at none
    cases none
  · obtain rfl : v.byte = r := (List.cons.inj same).1
    rw [v.not_rex] at isRex
    cases isRex

end

/-- **Rejections for rules, exactly.** Whatever the code and the place: too many prefixes, a
misplaced prefix, a select that is no map, and an opcode that is not defined are each the answer
just where that rule is the one broken. Of vector encodings no opcode is undefined, and there is
always progress or another reason. -/
theorem decode_rejects (code : View) (start : Nat) :
    (∀ reason : Rejection, reason.IsRule →
      (decode code start = .error reason ↔ Breaks (code.toList.drop start) reason)) ∧
    (∀ v : VectorEscape, GoesOn (code.toList.drop start) [v.byte] →
      ∀ map opcode, decode code start ≠ .error (.unknownOpcode map opcode)) ∧
    decode code start ≠ .error .noProgress := by
  refine ⟨fun reason rule => decode_eq_error_iff_breaks rule, ?_, decode_ne_noProgress⟩
  intro v vector map opcode answer
  have rule : (Rejection.unknownOpcode map opcode).IsRule := trivial
  exact not_breaks_unknownOpcode_of_vector vector map opcode
    ((decode_eq_error_iff_breaks rule).1 answer)

/-- A vector escape behind a prefix and REX is misplaced; behind a prefix alone that leaves vector
escapes alone, its opcode is not the reason. -/
theorem decode_rejects_vector_escapes :
    decode ⟨#[0x90, 0x2e, 0x48, 0xc5]⟩ 1 = .error (.misplacedPrefix 0xc5) ∧
    decode ⟨#[0x2e, 0xc5, 0xf8, 0x04]⟩ 0 ≠ .error (.unknownOpcode .twoByte 0x04) := by
  have broken : Breaks [0x2e, 0x48, 0xc5] (.misplacedPrefix 0xc5) := by
    refine ⟨?_, .inl ⟨0x48, ⟨[], rfl⟩, by decide, .inr (.inr (by decide))⟩⟩
    show (leadingPrefixes [0x2e, 0x48, 0xc5]).length ≤ 4
    decide
  have vector : GoesOn [0x2e, 0xc5, 0xf8, 0x04] [VectorEscape.vex2.byte] := ⟨[0xf8, 0x04], rfl⟩
  constructor
  · exact ((decode_rejects ⟨#[0x90, 0x2e, 0x48, 0xc5]⟩ 1).1 (.misplacedPrefix 0xc5) trivial).2 broken
  · exact (decode_rejects ⟨#[0x2e, 0xc5, 0xf8, 0x04]⟩ 0).2.1 .vex2 vector .twoByte 0x04

end CodeSpans.X86
