import CodeSpans.Proofs.X86.Encoding
import CodeSpans.Proofs.X86.Reading
import Mathlib.Data.List.Basic

/-!
# The stages read the grammar

Each stage of reading an instruction takes the bytes of one part of an encoding. For a stage that
looks no further (`readModRM_eq_ok_iff`, `readSelect_eq_ok_iff`) that is an equivalence. The stages
for prefixes and escapes also look at the byte behind, so for these there is one statement on what
was taken (`takes_of_readPrefixes` and others) and one that asks what stands behind
(`readPrefixes_eq_ok` and others). Put together, reading succeeds exactly on the bytes of a
well-formed encoding (`readStages_eq_ok_iff`).
-/

namespace CodeSpans.X86

open TakesBytes Reader Ahead

variable {s s' : Ahead}

/-! ## Bytes of one kind are not of another -/

/-- What can be checked byte by byte holds of all bytes. -/
theorem forall_byte {P : UInt8 → Prop} (h : ∀ n : Fin 256, P (UInt8.ofNat n)) (b : UInt8) : P b := by
  have here := h ⟨b.toNat, b.toNat_lt⟩
  rwa [UInt8.ofNat_toNat] at here

theorem LegacyPrefix.ofByte?_eq_none_of_isRex {b : UInt8} (h : Rex.isRex b) :
    LegacyPrefix.ofByte? b = none := by
  cases hp : LegacyPrefix.ofByte? b with
  | none => rfl
  | some p =>
    rw [← LegacyPrefix.byte_of_ofByte? hp] at h
    cases p with
    | segment register => cases register <;> exact absurd h (by decide)
    | _ => exact absurd h (by decide)

theorem VectorEscape.ofByte?_byte (v : VectorEscape) : ofByte? v.byte = some v := by
  cases v <;> rfl

theorem VectorEscape.byte_of_ofByte? {b : UInt8} {v : VectorEscape} (h : ofByte? b = some v) :
    v.byte = b := by
  unfold ofByte? at h
  simpa using List.find?_some h

/-- The byte is taken by no stage before the opcode. -/
structure StartsBody (b : UInt8) : Prop where
  notLegacy : LegacyPrefix.ofByte? b = none
  notRex : Rex.isRex b = false
  notVector : VectorEscape.ofByte? b = none

theorem VectorEscape.not_legacy (v : VectorEscape) : LegacyPrefix.ofByte? v.byte = none := by
  cases v <;> rfl

theorem VectorEscape.not_rex (v : VectorEscape) : Rex.isRex v.byte = false := by
  cases v <;> rfl

theorem oneByte_layout?_of_isRex {b : UInt8} (h : Rex.isRex b) :
    OpcodeMap.oneByte.layout? b = none := by
  have all : ∀ b : UInt8, Rex.isRex b → OpcodeMap.oneByte.layout? b = none :=
    forall_byte (by decide +kernel)
  exact all b h

theorem oneByte_layout?_of_legacy {b : UInt8} {p : LegacyPrefix}
    (h : LegacyPrefix.ofByte? b = some p) : OpcodeMap.oneByte.layout? b = none := by
  rw [← LegacyPrefix.byte_of_ofByte? h]
  cases p with
  | segment register => cases register <;> rfl
  | _ => rfl

theorem oneByte_layout?_of_vector {b : UInt8} {v : VectorEscape}
    (h : VectorEscape.ofByte? b = some v) : OpcodeMap.oneByte.layout? b = none := by
  rw [← VectorEscape.byte_of_ofByte? h]
  cases v <;> rfl

/-- An opcode that the one-byte map defines is read as an opcode. -/
theorem startsBody_of_oneByte {b : UInt8} {layout : Layout}
    (h : OpcodeMap.oneByte.layout? b = some layout) : StartsBody b where
  notLegacy := by
    cases hp : LegacyPrefix.ofByte? b with
    | none => rfl
    | some p => rw [oneByte_layout?_of_legacy hp] at h; cases h
  notRex := by
    cases hr : Rex.isRex b with
    | false => rfl
    | true => rw [oneByte_layout?_of_isRex hr] at h; cases h
  notVector := by
    cases hv : VectorEscape.ofByte? b with
    | none => rfl
    | some v => rw [oneByte_layout?_of_vector hv] at h; cases h

theorem startsBody_escape : StartsBody 0x0f := ⟨rfl, rfl, rfl⟩

/-! ## Prefixes -/

theorem steady_readPrefixes (room : Nat) (seen : Prefixes) :
    Steady (readPrefixes Reader room seen) := by
  induction room generalizing seen with
  | zero =>
    unfold readPrefixes
    refine steady_peek.bind fun b => ?_
    rw [lookup_bind]
    cases LegacyPrefix.ofByte? b with
    | none => exact steady_pure _
    | some p => exact steady_refuse trivial
  | succ room ih =>
    unfold readPrefixes
    refine steady_peek.bind fun b => ?_
    rw [lookup_bind]
    cases LegacyPrefix.ofByte? b with
    | none => exact steady_pure _
    | some p => exact (steady_skip 1).bind fun _ => ih _

/-- The prefixes end where they are read to, or one more is taken, for which there must be room. -/
theorem readPrefixes_cases {room : Nat} {seen ps : Prefixes}
    (h : readPrefixes Reader room seen s = .ok (ps, s')) :
    (ps = seen ∧ s' = s) ∨ ∃ p room' s₁, room = room' + 1 ∧ s.Takes [LegacyPrefix.byte p] s₁ ∧
      readPrefixes Reader room' (seen ++ [p]) s₁ = .ok (ps, s') := by
  rw [readPrefixes.eq_def, bind_eq_ok_iff] at h
  obtain ⟨b, s₁, hb, h⟩ := h
  obtain ⟨rfl, next⟩ := peek_eq_ok_iff.1 hb
  rw [lookup_bind] at h
  cases hp : LegacyPrefix.ofByte? b with
  | none =>
    simp only [hp, pure_eq_ok_iff] at h
    exact .inl h
  | some p =>
    cases room with
    | zero =>
      simp only [hp, refuse_eq] at h
      cases h
    | succ room =>
      simp only [hp, bind_eq_ok_iff] at h
      obtain ⟨_, s₂, hs, h⟩ := h
      rw [← LegacyPrefix.byte_of_ofByte? hp] at next
      exact .inr ⟨p, room, s₂, rfl, (skip_one_eq_ok_iff next).1 hs, h⟩

theorem takes_of_readPrefixes {room : Nat} {seen ps : Prefixes}
    (h : readPrefixes Reader room seen s = .ok (ps, s')) :
    ∃ more : Prefixes, ps = seen ++ more ∧ more.length ≤ room ∧
      s.Takes (more.map LegacyPrefix.byte) s' := by
  induction room generalizing seen s with
  | zero =>
    obtain ⟨rfl, rfl⟩ | ⟨p, room', s₁, noRoom, -, -⟩ := readPrefixes_cases h
    · exact ⟨[], by simp, Nat.le_refl _, by simp⟩
    · cases noRoom
  | succ room ih =>
    obtain ⟨rfl, rfl⟩ | ⟨p, room', s₁, same, first, h⟩ := readPrefixes_cases h
    · exact ⟨[], by simp, Nat.zero_le _, by simp⟩
    · cases same
      obtain ⟨more, rfl, few, takes⟩ := ih h
      exact ⟨p :: more, by simp, by simpa using few, first.trans takes⟩

section

variable {room : Nat} {seen more : Prefixes}

theorem readPrefixes_of_nil (h : s.rest = []) :
    readPrefixes Reader room seen s = .error (.wants (s.taken + 1)) := by
  have nothing : (peek : Reader UInt8) s = .error (.wants (s.taken + 1)) := by
    simp [peek, h]
  rw [readPrefixes, bind_eq_error_iff]
  exact .inl nothing

theorem readPrefixes_of_next (h : s.Next (LegacyPrefix.ofByte? · = none)) :
    readPrefixes Reader room seen s = .ok (seen, s) := by
  obtain ⟨b, here, hb⟩ := h.exists
  rw [readPrefixes, peek_bind here, lookup_bind, hb]
  rfl

theorem readPrefixes_zero {p : LegacyPrefix} {s₁ : Ahead} (h : s.Takes [p.byte] s₁) :
    readPrefixes Reader 0 seen s = .error (.broken .tooManyPrefixes) := by
  rw [readPrefixes, peek_bind h.here, lookup_bind, LegacyPrefix.ofByte?_byte]
  rfl

theorem readPrefixes_succ {p : LegacyPrefix} {s₁ : Ahead} (h : s.Takes [p.byte] s₁) :
    readPrefixes Reader (room + 1) seen s = readPrefixes Reader room (seen ++ [p]) s₁ := by
  rw [readPrefixes, peek_bind h.here, lookup_bind, LegacyPrefix.ofByte?_byte]
  exact skip_one_bind h

/-- Prefixes for which there is room are put to those seen. -/
theorem readPrefixes_of_takes (few : more.length ≤ room)
    (takes : s.Takes (more.map LegacyPrefix.byte) s') :
    readPrefixes Reader room seen s =
      readPrefixes Reader (room - more.length) (seen ++ more) s' := by
  induction more generalizing room seen s with
  | nil =>
    obtain rfl := takes_nil_iff.1 takes
    rw [List.append_nil]
    rfl
  | cons p more ih =>
    obtain ⟨s₁, first, rest⟩ := takes_cons_iff.1 takes
    cases room with
    | zero => simp at few
    | succ room =>
      rw [readPrefixes_succ first, ih (Nat.le_of_succ_le_succ few) rest, List.append_assoc,
        List.singleton_append, List.length_cons, Nat.add_sub_add_right]

theorem readPrefixes_eq_ok (few : more.length ≤ room)
    (takes : s.Takes (more.map LegacyPrefix.byte) s')
    (next : s'.Next (LegacyPrefix.ofByte? · = none)) :
    readPrefixes Reader room seen s = .ok (seen ++ more, s') := by
  rw [readPrefixes_of_takes few takes, readPrefixes_of_next next]

end

theorem steady_readRex : Steady (readRex Reader) := by
  unfold readRex
  refine steady_peek.bind fun b => ?_
  split
  · refine (steady_skip 1).bind fun _ => steady_peek.bind fun next => ?_
    rw [lookup_bind]
    split
    · exact steady_refuse trivial
    · exact steady_pure _
  · exact steady_pure _

theorem takes_of_readRex {rex : Option Rex} (h : readRex Reader s = .ok (rex, s')) :
    (∀ r ∈ rex, Rex.isRex r.byte) ∧ s.Takes (rex.map Rex.byte).toList s' := by
  rw [readRex, bind_eq_ok_iff] at h
  obtain ⟨b, s₁, hb, h⟩ := h
  obtain ⟨rfl, here⟩ := peek_eq_ok_iff.1 hb
  split at h
  · next isRex =>
    simp only [lookup_bind, bind_eq_ok_iff] at h
    obtain ⟨_, s₂, hs, next, s₃, hn, h⟩ := h
    obtain ⟨rfl, -⟩ := peek_eq_ok_iff.1 hn
    split at h
    · simp only [refuse_eq] at h
      cases h
    · rw [pure_eq_ok_iff] at h
      obtain ⟨rfl, rfl⟩ := h
      exact ⟨by simpa using isRex, (skip_one_eq_ok_iff here).1 hs⟩
  · rw [pure_eq_ok_iff] at h
    obtain ⟨rfl, rfl⟩ := h
    exact ⟨by simp, by simp⟩

theorem readRex_eq_ok {rex : Option Rex} (isRex : ∀ r ∈ rex, Rex.isRex r.byte)
    (takes : s.Takes (rex.map Rex.byte).toList s')
    (next : s'.Next fun b => Rex.isRex b = false ∧ LegacyPrefix.ofByte? b = none) :
    readRex Reader s = .ok (rex, s') := by
  obtain ⟨b, there, notRex, notLegacy⟩ := next.exists
  rw [readRex]
  cases rex with
  | none =>
    obtain rfl := takes_nil_iff.1 takes
    rw [peek_bind there, if_neg (by simp [notRex])]
    rfl
  | some r =>
    rw [peek_bind takes.here, if_pos (isRex r rfl), skip_one_bind takes, peek_bind there,
      lookup_bind, if_neg (by simp [notRex, notLegacy])]
    rfl

/-! ## Escapes -/

theorem steady_readEscape : Steady (readEscape Reader) := by
  unfold readEscape
  refine steady_peek.bind fun b => ?_
  split
  · refine (steady_skip 1).bind fun _ => steady_peek.bind fun second => ?_
    split
    · exact (steady_skip 1).bind fun _ => steady_pure _
    · split
      · exact (steady_skip 1).bind fun _ => steady_pure _
      · exact steady_pure _
  · exact steady_pure _

theorem takes_of_readEscape {map : OpcodeMap} (h : readEscape Reader s = .ok (map, s')) :
    s.Takes map.escape s' := by
  rw [readEscape, bind_eq_ok_iff] at h
  obtain ⟨b, s₁, hb, h⟩ := h
  obtain ⟨rfl, here⟩ := peek_eq_ok_iff.1 hb
  split at h
  · next hb =>
    subst hb
    simp only [bind_eq_ok_iff] at h
    obtain ⟨_, s₂, hs, second, s₃, hn, h⟩ := h
    obtain ⟨rfl, there⟩ := peek_eq_ok_iff.1 hn
    have first := (skip_one_eq_ok_iff here).1 hs
    split at h
    · next hsecond =>
      simp only [bind_eq_ok_iff, pure_eq_ok_iff] at h
      obtain ⟨_, s₄, hs', rfl, rfl⟩ := h
      rw [skip_one_eq_ok_iff there, hsecond] at hs'
      exact first.trans hs'
    · split at h
      · next hsecond =>
        simp only [bind_eq_ok_iff, pure_eq_ok_iff] at h
        obtain ⟨_, s₄, hs', rfl, rfl⟩ := h
        rw [skip_one_eq_ok_iff there, hsecond] at hs'
        exact first.trans hs'
      · rw [pure_eq_ok_iff] at h
        obtain ⟨rfl, rfl⟩ := h
        exact first
  · rw [pure_eq_ok_iff] at h
    obtain ⟨rfl, rfl⟩ := h
    exact takes_nil_iff.2 rfl

/-- The byte behind an escape does not make it a longer one. -/
def OpcodeMap.EndsEscape : OpcodeMap → UInt8 → Prop
  | .oneByte, b => b ≠ 0x0f
  | .twoByte, b => b ≠ 0x38 ∧ b ≠ 0x3a
  | .map38, _ | .map3a, _ => True

theorem OpcodeMap.endsEscape_of_layout? {map : OpcodeMap} {opcode : UInt8} {layout : Layout}
    (h : map.layout? opcode = some layout) : map.EndsEscape opcode := by
  cases map with
  | oneByte => rintro rfl; cases h
  | twoByte => constructor <;> (rintro rfl; cases h)
  | map38 => trivial
  | map3a => trivial

theorem readEscape_eq_ok {map : OpcodeMap} (takes : s.Takes map.escape s')
    (next : s'.Next map.EndsEscape) : readEscape Reader s = .ok (map, s') := by
  obtain ⟨b, there, ends⟩ := next.exists
  rw [readEscape]
  cases map with
  | oneByte =>
    obtain rfl := takes_nil_iff.1 takes
    rw [peek_bind there, if_neg ends]
    rfl
  | twoByte =>
    rw [peek_bind takes.here, if_pos rfl, skip_one_bind takes, peek_bind there, if_neg ends.1,
      if_neg ends.2]
    rfl
  | map38 =>
    obtain ⟨s₁, first, second⟩ := takes_cons_iff.1 takes
    rw [peek_bind first.here, if_pos rfl, skip_one_bind first, peek_bind second.here, if_pos rfl,
      skip_one_bind second]
    rfl
  | map3a =>
    obtain ⟨s₁, first, second⟩ := takes_cons_iff.1 takes
    rw [peek_bind first.here, if_pos rfl, skip_one_bind first, peek_bind second.here,
      if_neg (by decide), if_pos rfl, skip_one_bind second]
    rfl

/-! ## Operands -/

theorem ModRM.mode_cases (m : ModRM) : m.mode = 0 ∨ m.mode = 1 ∨ m.mode = 2 ∨ m.mode = 3 := by
  have all : ∀ b : UInt8, b >>> 6 = 0 ∨ b >>> 6 = 1 ∨ b >>> 6 = 2 ∨ b >>> 6 = 3 :=
    forall_byte (by decide +kernel)
  exact all m.byte

theorem displacementWidth_eq_none {m : ModRM} (hm : m.mode ≠ 3) :
    displacementWidth m.mode m.rm = m.displacementSize none := by
  obtain h | h | h | h := m.mode_cases
  · by_cases h5 : m.rm = 5 <;> simp [displacementWidth, ModRM.displacementSize, h, h5]
  · simp [displacementWidth, ModRM.displacementSize, h]
  · simp [displacementWidth, ModRM.displacementSize, h]
  · exact absurd h hm

theorem displacementWidth_eq_some {m : ModRM} {sib : UInt8} (hm : m.mode ≠ 3) (hr : m.rm = 4) :
    displacementWidth m.mode (sib &&& 7) = m.displacementSize (some sib) := by
  obtain h | h | h | h := m.mode_cases
  · by_cases h5 : sib &&& 7 = 5 <;> simp [displacementWidth, ModRM.displacementSize, h, hr, h5]
  · simp [displacementWidth, ModRM.displacementSize, h]
  · simp [displacementWidth, ModRM.displacementSize, h]
  · exact absurd h hm

theorem steady_skipAddress (m : ModRM) : Steady (skipAddress Reader m) := by
  unfold skipAddress
  split
  · exact steady_pure _
  · split
    · exact steady_take.bind fun _ => steady_skip _
    · exact steady_skip _

/-- What stands behind a ModRM byte that addresses. -/
theorem skipAddress_eq_ok_iff {m : ModRM} {u : Unit} :
    skipAddress Reader m s = .ok (u, s') ↔ ∃ sib displacement,
      (sib.isSome ↔ m.mode ≠ 3 ∧ m.rm = 4) ∧
        displacement.length = m.displacementSize sib ∧
          s.Takes (sib.toList ++ displacement) s' := by
  unfold skipAddress
  by_cases hm : m.mode = 3
  · -- a register: neither part is there
    have noWidth : ∀ sib, m.displacementSize sib = 0 := by
      intro sib
      simp [ModRM.displacementSize, hm]
    rw [if_pos hm, pure_eq_ok_iff]
    constructor
    · rintro ⟨-, rfl⟩
      exact ⟨none, [], by simp [hm], by simp [noWidth], by simp⟩
    · rintro ⟨sib, displacement, hsib, hdisp, takes⟩
      obtain rfl : sib = none := by simpa [hm] using hsib
      obtain rfl : displacement = [] :=
        List.eq_nil_of_length_eq_zero (hdisp.trans (noWidth none))
      exact ⟨rfl, takes_nil_iff.1 takes⟩
  · rw [if_neg hm]
    by_cases hr : m.rm = 4
    · rw [if_pos hr]
      constructor
      · intro h
        obtain ⟨sib, s₁, hs, h⟩ := bind_eq_ok_iff.1 h
        obtain ⟨displacement, len, takes⟩ := skip_eq_ok_iff.1 h
        rw [displacementWidth_eq_some hm hr] at len
        exact ⟨some sib, displacement, by simp [hm, hr], len, (take_eq_ok_iff.1 hs).trans takes⟩
      · rintro ⟨sib, displacement, hsib, hdisp, takes⟩
        obtain ⟨b, rfl⟩ := Option.isSome_iff_exists.1 (hsib.2 ⟨hm, hr⟩)
        obtain ⟨s₁, first, second⟩ := takes_cons_iff.1 takes
        rw [take_bind first, displacementWidth_eq_some hm hr]
        exact skip_eq_ok_iff.2 ⟨displacement, hdisp, second⟩
    · rw [if_neg hr, displacementWidth_eq_none hm, skip_eq_ok_iff]
      constructor
      · rintro ⟨displacement, len, takes⟩
        exact ⟨none, displacement, by simp [hr], len, takes⟩
      · rintro ⟨sib, displacement, hsib, hdisp, takes⟩
        obtain rfl : sib = none := by simpa [hr] using hsib
        exact ⟨displacement, hdisp, takes⟩

theorem steady_readModRM (use : ModRMUse) : Steady (readModRM Reader use) := by
  cases use with
  | absent => exact steady_pure _
  | registers => exact steady_take.bind fun _ => steady_pure _
  | addressing => exact steady_take.bind fun _ => (steady_skipAddress _).bind fun _ => steady_pure _

theorem readModRM_eq_ok_iff {use : ModRMUse} {m : Option ModRM} :
    readModRM Reader use s = .ok (m, s') ↔
      ∃ o : Operand, o.Fits use ∧ o.modrm = m ∧ s.Takes o.bytes s' := by
  cases use with
  | absent =>
    rw [readModRM, pure_eq_ok_iff]
    constructor
    · rintro ⟨rfl, rfl⟩
      exact ⟨⟨none, none, []⟩, ⟨by simp, by simp, by simp⟩, rfl, takes_nil_iff.2 rfl⟩
    · rintro ⟨⟨modrm, sib, displacement⟩, ⟨hm, hs, hd⟩, rfl, takes⟩
      obtain rfl : modrm = none := by simpa using hm
      obtain rfl : sib = none := by simpa using hs
      obtain rfl : displacement = [] := by simpa using hd
      exact ⟨rfl, takes_nil_iff.1 takes⟩
  | registers =>
    constructor
    · intro h
      obtain ⟨b, s₁, hb, h⟩ := bind_eq_ok_iff.1 h
      obtain ⟨rfl, rfl⟩ := pure_eq_ok_iff.1 h
      exact ⟨⟨some ⟨b⟩, none, []⟩, ⟨by simp, by simp, by simp⟩, rfl, take_eq_ok_iff.1 hb⟩
    · rintro ⟨⟨modrm, sib, displacement⟩, ⟨hm, hs, hd⟩, rfl, takes⟩
      obtain ⟨m, rfl⟩ := Option.isSome_iff_exists.1 (hm.2 (by decide))
      obtain rfl : sib = none := by simpa using hs
      obtain rfl : displacement = [] := by simpa using hd
      rw [readModRM, take_bind takes]
      rfl
  | addressing =>
    constructor
    · intro h
      obtain ⟨b, s₁, hb, h⟩ := bind_eq_ok_iff.1 h
      obtain ⟨_, s₂, hs, h⟩ := bind_eq_ok_iff.1 h
      obtain ⟨rfl, rfl⟩ := pure_eq_ok_iff.1 h
      obtain ⟨sib, displacement, hsib, hdisp, takes⟩ := skipAddress_eq_ok_iff.1 hs
      exact ⟨⟨some ⟨b⟩, sib, displacement⟩, ⟨by simp, by simpa using hsib, by simpa using hdisp⟩,
        rfl, (take_eq_ok_iff.1 hb).trans takes⟩
    · rintro ⟨⟨modrm, sib, displacement⟩, ⟨hm, hs, hd⟩, rfl, takes⟩
      obtain ⟨m, rfl⟩ := Option.isSome_iff_exists.1 (hm.2 (by decide))
      obtain ⟨s₁, first, second⟩ := takes_cons_iff.1 takes
      have address : skipAddress Reader m s₁ = .ok ((), s') :=
        skipAddress_eq_ok_iff.2 ⟨sib, displacement, by simpa using hs, by simpa using hd, second⟩
      rw [readModRM, take_bind first, bind_of_ok address]
      rfl

/-! ## Behind the opcode -/

/-- What is read behind the opcode: the operand of a layout, and its immediate. -/
theorem readTail_eq_ok_iff {layout : Layout} {sizing : Option ModRM → Sizing} {n : UInt8} :
    readTail Reader layout sizing s = .ok (n, s') ↔
      ∃ (operand : Operand) (immediate : List UInt8), operand.Fits layout.modrm ∧
        immediate.length = layout.immediate.width (sizing operand.modrm) ∧
          s.Takes (operand.bytes ++ immediate) s' ∧ n = s'.taken.toUInt8 := by
  constructor
  · intro h
    rw [readTail, bind_eq_ok_iff] at h
    obtain ⟨m, s₁, hm, h⟩ := h
    obtain ⟨_, s₂, himm, h⟩ := bind_eq_ok_iff.1 h
    obtain ⟨rfl, rfl⟩ := consumed_eq_ok_iff.1 h
    obtain ⟨operand, fits, rfl, takes⟩ := readModRM_eq_ok_iff.1 hm
    obtain ⟨immediate, width, takes'⟩ := skip_eq_ok_iff.1 himm
    exact ⟨operand, immediate, fits, width, takes.trans takes', rfl⟩
  · rintro ⟨operand, immediate, fits, width, takes, rfl⟩
    obtain ⟨s₁, behind, last⟩ := takes_append_iff.1 takes
    have hmodrm : readModRM Reader layout.modrm s = .ok (operand.modrm, s₁) :=
      readModRM_eq_ok_iff.2 ⟨operand, fits, rfl, behind⟩
    rw [readTail, bind_of_ok hmodrm, skip_bind width last]
    rfl

theorem steady_readTail (layout : Layout) (sizing : Option ModRM → Sizing) :
    Steady (readTail Reader layout sizing) :=
  (steady_readModRM _).bind fun _ => (steady_skip _).bind fun _ => steady_consumed

/-! ## Legacy encodings -/

theorem steady_readLegacy (seen : Prefixes) (rex : Option Rex) :
    Steady (readLegacy Reader seen rex) := by
  unfold readLegacy
  refine steady_readEscape.bind fun map => steady_take.bind fun opcode => ?_
  rw [lookup_bind]
  cases map.layout? opcode with
  | none => exact steady_refuse trivial
  | some layout => exact (steady_readTail _ _).bind fun _ => steady_pure _

theorem readLegacy_eq_ok_iff {seen : Prefixes} {rex : Option Rex} {i : Instruction} :
    readLegacy Reader seen rex s = .ok (i, s') ↔ ∃ e : LegacyEncoding, e.seen = seen ∧ e.rex = rex ∧
      e.Defined ∧ s.Takes e.body s' ∧ i = { e.instruction with length := s'.taken.toUInt8 } := by
  constructor
  · intro h
    simp only [readLegacy, lookup_bind, bind_eq_ok_iff] at h
    obtain ⟨map, s₁, hmap, opcode, s₂, hop, h⟩ := h
    cases hl : map.layout? opcode with
    | none =>
      simp only [hl, refuse_eq] at h
      cases h
    | some layout =>
      simp only [hl, bind_eq_ok_iff, pure_eq_ok_iff] at h
      obtain ⟨length, s₃, htail, rfl, rfl⟩ := h
      obtain ⟨operand, immediate, fits, width, takes, rfl⟩ := readTail_eq_ok_iff.1 htail
      exact ⟨⟨seen, rex, map, opcode, operand, immediate⟩, rfl, rfl, ⟨layout, hl, fits, width⟩,
        (takes_of_readEscape hmap).trans ((take_eq_ok_iff.1 hop).trans takes), rfl⟩
  · rintro ⟨⟨seen, rex, map, opcode, operand, immediate⟩, rfl, rfl, ⟨layout, hl, fits, width⟩,
      takes, rfl⟩
    obtain ⟨s₁, escape, takes⟩ := takes_append_iff.1 takes
    obtain ⟨s₂, here, behind⟩ := takes_cons_iff.1 takes
    have hescape : readEscape Reader s = .ok (map, s₁) :=
      readEscape_eq_ok escape (here.next (OpcodeMap.endsEscape_of_layout? hl))
    have htail : readTail Reader layout (.of seen rex) s₂ = .ok (s'.taken.toUInt8, s') :=
      readTail_eq_ok_iff.2 ⟨operand, immediate, fits, width, behind, rfl⟩
    rw [readLegacy, bind_of_ok hescape, take_bind here, lookup_bind, hl]
    exact bind_of_ok htail

/-! ## Vector encodings -/

theorem steady_readSelect (v : VectorEscape) : Steady (v.readSelect Reader) := by
  cases v with
  | vex2 => exact (steady_skip 1).bind fun _ => steady_pure _
  | vex3 => exact steady_take.bind fun _ => (steady_skip 1).bind fun _ => steady_pure _
  | evex => exact steady_take.bind fun _ => (steady_skip 2).bind fun _ => steady_pure _

/-- The payloads of vector escapes with the selectors they carry. -/
inductive VectorEscape.Carries : VectorEscape → List UInt8 → UInt8 → Prop where
  | vex2 (b : UInt8) : Carries .vex2 [b] 1
  | vex3 (b c : UInt8) : Carries .vex3 [b, c] (b &&& 0x1f)
  | evex (b c d : UInt8) : Carries .evex [b, c, d] (b &&& 0x07)

theorem readSelect_eq_ok_iff_carries {v : VectorEscape} {select : UInt8} :
    v.readSelect Reader s = .ok (select, s') ↔
      ∃ payload, v.Carries payload select ∧ s.Takes payload s' := by
  cases v with
  | vex2 =>
    constructor
    · intro h
      simp only [VectorEscape.readSelect, bind_eq_ok_iff, pure_eq_ok_iff] at h
      obtain ⟨_, s₁, hs, rfl, rfl⟩ := h
      obtain ⟨word, len, takes⟩ := skip_eq_ok_iff.1 hs
      obtain ⟨b, rfl⟩ := List.length_eq_one_iff.1 len
      exact ⟨[b], .vex2 b, takes⟩
    · intro h
      obtain ⟨payload, ⟨b⟩, takes⟩ := h
      rw [VectorEscape.readSelect, skip_one_bind takes]
      rfl
  | vex3 =>
    constructor
    · intro h
      simp only [VectorEscape.readSelect, bind_eq_ok_iff, pure_eq_ok_iff] at h
      obtain ⟨b, s₁, hb, _, s₂, hs, rfl, rfl⟩ := h
      obtain ⟨word, len, takes⟩ := skip_eq_ok_iff.1 hs
      obtain ⟨c, rfl⟩ := List.length_eq_one_iff.1 len
      exact ⟨[b, c], .vex3 b c, (take_eq_ok_iff.1 hb).trans takes⟩
    · intro h
      obtain ⟨payload, ⟨⟩ | ⟨b, c⟩, takes⟩ := h
      obtain ⟨s₁, first, second⟩ := takes_cons_iff.1 takes
      rw [VectorEscape.readSelect, take_bind first, skip_one_bind second]
      rfl
  | evex =>
    constructor
    · intro h
      simp only [VectorEscape.readSelect, bind_eq_ok_iff, pure_eq_ok_iff] at h
      obtain ⟨b, s₁, hb, _, s₂, hs, rfl, rfl⟩ := h
      obtain ⟨word, len, takes⟩ := skip_eq_ok_iff.1 hs
      obtain ⟨c, d, rfl⟩ := List.length_eq_two.1 len
      exact ⟨[b, c, d], .evex b c d, (take_eq_ok_iff.1 hb).trans takes⟩
    · intro h
      obtain ⟨payload, ⟨⟩ | ⟨⟩ | ⟨b, c, d⟩, takes⟩ := h
      obtain ⟨s₁, first, rest⟩ := takes_cons_iff.1 takes
      have two : [c, d].length = 2 := rfl
      rw [VectorEscape.readSelect, take_bind first, skip_bind two rest]
      rfl

theorem VectorEscape.selects_iff {v : VectorEscape} {payload : List UInt8} {map : OpcodeMap} :
    v.Selects payload map ↔ ∃ select, v.Carries payload select ∧ map? select = some map := by
  constructor
  · intro h
    cases h with
    | vex2 b => exact ⟨1, .vex2 b, rfl⟩
    | vex3 b c h => exact ⟨_, .vex3 b c, h⟩
    | evex b c d h => exact ⟨_, .evex b c d, h⟩
  · intro h
    obtain ⟨select, carries, h⟩ := h
    cases carries with
    | vex2 b =>
      obtain rfl : .twoByte = map := by simpa [map?] using h
      exact .vex2 b
    | vex3 b c => exact .vex3 b c h
    | evex b c d => exact .evex b c d h

theorem readSelect_eq_ok_iff {v : VectorEscape} {map : OpcodeMap} :
    (∃ select, v.readSelect Reader s = .ok (select, s') ∧ VectorEscape.map? select = some map) ↔
      ∃ payload, v.Selects payload map ∧ s.Takes payload s' := by
  simp only [readSelect_eq_ok_iff_carries, VectorEscape.selects_iff]
  constructor
  · intro h
    obtain ⟨select, ⟨payload, carries, takes⟩, hmap⟩ := h
    exact ⟨payload, ⟨select, carries, hmap⟩, takes⟩
  · intro h
    obtain ⟨payload, ⟨select, carries, hmap⟩, takes⟩ := h
    exact ⟨select, ⟨payload, carries, takes⟩, hmap⟩

theorem steady_readVector (seen : Prefixes) (v : VectorEscape) :
    Steady (readVector Reader seen v) := by
  unfold readVector
  refine (steady_skip 1).bind fun _ => (steady_readSelect v).bind fun select => ?_
  cases VectorEscape.map? select with
  | none => exact steady_refuse trivial
  | some map =>
    refine steady_take.bind fun opcode => ?_
    rw [lookup_bind]
    cases map.vectorLayout? opcode with
    | none => exact steady_refuse trivial
    | some layout => exact (steady_readTail _ _).bind fun _ => steady_pure _

theorem readVector_eq_ok_iff {seen : Prefixes} {v : VectorEscape} {i : Instruction}
    (here : s.Next (v.byte = ·)) :
    readVector Reader seen v s = .ok (i, s') ↔ ∃ e : VectorEncoding, e.seen = seen ∧ e.escape = v ∧
      e.escape.Selects e.payload e.map ∧ e.Defined ∧ s.Takes e.body s' ∧
        i = { e.instruction with length := s'.taken.toUInt8 } := by
  constructor
  · intro h
    rw [readVector, bind_eq_ok_iff] at h
    obtain ⟨_, s₁, hs, h⟩ := h
    have first := (skip_one_eq_ok_iff here).1 hs
    rw [bind_eq_ok_iff] at h
    obtain ⟨select, s₂, hselect, h⟩ := h
    cases hmap : VectorEscape.map? select with
    | none =>
      simp only [hmap, refuse_eq] at h
      cases h
    | some map =>
      obtain ⟨payload, selects, takes⟩ := readSelect_eq_ok_iff.1 ⟨select, hselect, hmap⟩
      simp only [hmap, lookup_bind, bind_eq_ok_iff] at h
      obtain ⟨opcode, s₃, hop, h⟩ := h
      cases hl : map.vectorLayout? opcode with
      | none =>
        simp only [hl, refuse_eq] at h
        cases h
      | some layout =>
        simp only [hl, bind_eq_ok_iff, pure_eq_ok_iff] at h
        obtain ⟨length, s₄, htail, rfl, rfl⟩ := h
        obtain ⟨operand, immediate, fits, width, takes', rfl⟩ := readTail_eq_ok_iff.1 htail
        exact ⟨⟨seen, v, payload, map, opcode, operand, immediate⟩, rfl, rfl, selects,
          ⟨layout, hl, fits, width⟩,
          first.trans (takes.trans ((take_eq_ok_iff.1 hop).trans takes')), rfl⟩
  · rintro ⟨⟨seen, v, payload, map, opcode, operand, immediate⟩, rfl, rfl, selects,
      ⟨layout, hl, fits, width⟩, takes, rfl⟩
    obtain ⟨s₁, first, takes⟩ := takes_cons_iff.1 takes
    obtain ⟨s₂, second, takes⟩ := takes_append_iff.1 takes
    obtain ⟨s₃, third, behind⟩ := takes_cons_iff.1 takes
    obtain ⟨select, hselect, hmap⟩ := readSelect_eq_ok_iff.2 ⟨payload, selects, second⟩
    have htail : readTail Reader layout (fun _ => .of [] none none) s₃ =
        .ok (s'.taken.toUInt8, s') :=
      readTail_eq_ok_iff.2 ⟨operand, immediate, fits, width, behind, rfl⟩
    rw [readVector, skip_one_bind first, bind_of_ok hselect, hmap]
    simp only [take_bind third, lookup_bind, hl]
    exact bind_of_ok htail

/-! ## Whole instructions -/

theorem steady_readBehind (seen : Prefixes) : Steady (readBehind Reader seen) := by
  unfold readBehind
  refine steady_readRex.bind fun rex => steady_peek.bind fun b => ?_
  cases VectorEscape.ofByte? b with
  | none => exact steady_readLegacy seen rex
  | some v =>
    show Steady (if _ then _ else _)
    split
    · exact steady_refuse trivial
    · exact steady_readVector seen v

theorem steady_readStages : Steady (readStages Reader) :=
  (steady_readPrefixes _ _).bind steady_readBehind

theorem Prefixes.refuseVector_eq_false_iff {seen : Prefixes} :
    seen.refuseVector = false ↔
      ∀ p ∈ seen, p ≠ .lock ∧ p ≠ .repne ∧ p ≠ .rep ∧ p ≠ .operandSize := by
  unfold refuseVector
  rw [List.any_eq_false]
  refine forall_congr' fun p => forall_congr' fun _ => ?_
  cases p <;> simp

/-- A defined opcode, with its escape, starts with a byte that no stage before it takes. -/
theorem startsBody_of_layout? {map : OpcodeMap} {opcode : UInt8} {layout : Layout}
    {word : List UInt8} (h : map.layout? opcode = some layout)
    (takes : s.Takes (map.escape ++ opcode :: word) s') : s.Next StartsBody := by
  cases map with
  | oneByte => exact takes.next (startsBody_of_oneByte h)
  | twoByte => exact takes.next startsBody_escape
  | map38 => exact takes.next startsBody_escape
  | map3a => exact takes.next startsBody_escape

/-- Behind REX, what starts a body is read as a legacy encoding. -/
theorem readBehind_of_startsBody {seen : Prefixes} {rex : Option Rex}
    (hrex : readRex Reader s = .ok (rex, s')) (starts : s'.Next StartsBody) :
    readBehind Reader seen s = readLegacy Reader seen rex s' := by
  obtain ⟨b, here, hb⟩ := starts.exists
  rw [readBehind, bind_of_ok hrex, peek_bind here, hb.notVector]

/-- A vector escape is read as such, or refused. -/
theorem readBehind_of_vector {seen : Prefixes} {rex : Option Rex} {v : VectorEscape}
    (hrex : readRex Reader s = .ok (rex, s')) (here : s'.Next (v.byte = ·)) :
    readBehind Reader seen s =
      if rex.isSome || seen.refuseVector then .error (.broken (.misplacedPrefix v.byte))
      else readVector Reader seen v s' := by
  rw [readBehind, bind_of_ok hrex, peek_bind here, VectorEscape.ofByte?_byte]
  exact apply_ite (fun r : Reader Instruction => r s') _ _ _

/-- Behind prefixes and REX, what starts a body is read as a legacy encoding. -/
theorem readStages_eq_readLegacy {seen : Prefixes} {rex : Option Rex}
    (few : seen.length ≤ maxPrefixes) (isRex : ∀ r ∈ rex, Rex.isRex r.byte)
    (takes : s.Takes (seen.map LegacyPrefix.byte ++ (rex.map Rex.byte).toList) s')
    (starts : s'.Next StartsBody) : readStages Reader s = readLegacy Reader seen rex s' := by
  obtain ⟨s₁, prefixes, rexTakes⟩ := takes_append_iff.1 takes
  have behindPrefixes : s₁.Next (LegacyPrefix.ofByte? · = none) := by
    cases rex with
    | none =>
      obtain rfl := takes_nil_iff.1 rexTakes
      exact starts.mono fun _ hb => hb.notLegacy
    | some r => exact rexTakes.next (LegacyPrefix.ofByte?_eq_none_of_isRex (isRex r rfl))
  have hprefixes : readPrefixes Reader maxPrefixes [] s = .ok (seen, s₁) :=
    readPrefixes_eq_ok few prefixes behindPrefixes
  have hrex : readRex Reader s₁ = .ok (rex, s') :=
    readRex_eq_ok isRex rexTakes (starts.mono fun _ hb => ⟨hb.notRex, hb.notLegacy⟩)
  rw [readStages, bind_of_ok hprefixes, readBehind_of_startsBody hrex starts]

/-- Behind prefixes that allow it, a vector escape is read as such. -/
theorem readStages_eq_readVector {seen : Prefixes} {v : VectorEscape}
    (few : seen.length ≤ maxPrefixes)
    (allowed : ∀ p ∈ seen, p ≠ .lock ∧ p ≠ .repne ∧ p ≠ .rep ∧ p ≠ .operandSize)
    (takes : s.Takes (seen.map LegacyPrefix.byte) s') (here : s'.Next (v.byte = ·)) :
    readStages Reader s = readVector Reader seen v s' := by
  have hprefixes : readPrefixes Reader maxPrefixes [] s = .ok (seen, s') :=
    readPrefixes_eq_ok few takes (here.mono fun _ same => same ▸ v.not_legacy)
  have hrex : readRex Reader s' = .ok (none, s') :=
    readRex_eq_ok nofun (takes_nil_iff.2 rfl)
      (here.mono fun _ same => same ▸ ⟨v.not_rex, v.not_legacy⟩)
  rw [readStages, bind_of_ok hprefixes, readBehind_of_vector hrex here,
    Prefixes.refuseVector_eq_false_iff.2 allowed]
  rfl

theorem LegacyEncoding.readStages_eq_ok {e : LegacyEncoding} (h : e.WellFormed)
    (takes : s.Takes e.bytes s') :
    readStages Reader s = .ok ({ e.instruction with length := s'.taken.toUInt8 }, s') := by
  unfold bytes at takes
  rw [← List.append_assoc] at takes
  obtain ⟨s₁, before, body⟩ := takes_append_iff.1 takes
  obtain ⟨layout, hl, -, -⟩ := h.defined
  rw [readStages_eq_readLegacy h.few h.isRex before (startsBody_of_layout? hl body)]
  exact readLegacy_eq_ok_iff.2 ⟨e, rfl, rfl, h.defined, body, rfl⟩

theorem VectorEncoding.readStages_eq_ok {e : VectorEncoding} (h : e.WellFormed)
    (takes : s.Takes e.bytes s') :
    readStages Reader s = .ok ({ e.instruction with length := s'.taken.toUInt8 }, s') := by
  obtain ⟨s₁, prefixes, body⟩ := takes_append_iff.1 takes
  rw [readStages_eq_readVector h.few h.allowed prefixes body.here]
  exact (readVector_eq_ok_iff body.here).2 ⟨e, rfl, rfl, h.selects, h.defined, body, rfl⟩

/-- **Reading succeeds exactly on well-formed encodings**: it takes their bytes and nothing of
what stands behind. -/
theorem readStages_eq_ok_iff {i : Instruction} :
    readStages Reader s = .ok (i, s') ↔ ∃ e : Encoding, e.WellFormed ∧ s.Takes e.bytes s' ∧
      i = { e.instruction with length := s'.taken.toUInt8 } := by
  constructor
  · intro h
    simp only [readStages, readBehind, bind_eq_ok_iff] at h
    obtain ⟨seen, s₁, hprefixes, rex, s₂, hrex, b, s₃, hb, h⟩ := h
    obtain ⟨more, rfl, few, prefixes⟩ := takes_of_readPrefixes hprefixes
    obtain ⟨isRex, hrex⟩ := takes_of_readRex hrex
    obtain ⟨rfl, here⟩ := peek_eq_ok_iff.1 hb
    cases hv : VectorEscape.ofByte? b with
    | none =>
      simp only [hv, readLegacy_eq_ok_iff] at h
      obtain ⟨e, rfl, rfl, defined, body, rfl⟩ := h
      exact ⟨.legacy e, ⟨few, isRex, defined⟩, prefixes.trans (hrex.trans body), rfl⟩
    | some v =>
      simp only [hv] at h
      rw [← VectorEscape.byte_of_ofByte? hv] at here
      split at h
      · simp only [refuse_eq] at h
        cases h
      · next allowed =>
        simp only [Bool.or_eq_true, not_or, Bool.not_eq_true, Option.isSome_eq_false_iff,
          Option.isNone_iff_eq_none] at allowed
        obtain ⟨rfl, allowed⟩ := allowed
        obtain ⟨e, rfl, rfl, selects, defined, body, rfl⟩ := (readVector_eq_ok_iff here).1 h
        obtain rfl := takes_nil_iff.1 hrex
        exact ⟨.vector e, ⟨few, Prefixes.refuseVector_eq_false_iff.1 allowed, selects, defined⟩,
          prefixes.trans body, rfl⟩
  · rintro ⟨e, wf, takes, rfl⟩
    cases e with
    | legacy e => exact e.readStages_eq_ok wf takes
    | vector e => exact e.readStages_eq_ok wf takes

end CodeSpans.X86
