import CodeSpans.Proofs.X86.Demands
import CodeSpans.Proofs.X86.Rules

/-!
# The greatest length

The grammar has words of sixteen bytes, one more than an instruction may have, and none that is
longer.
-/

namespace CodeSpans.X86

open Reader Ahead

/-! ## How long the parts of an encoding are -/

/-- The most bytes of an operand. -/
def ModRMUse.most : ModRMUse → Nat
  | .absent => 0
  | .registers => 1
  | .addressing => 6

/-- The most bytes of an immediate. -/
def Immediate.most : Immediate → Nat
  | .none => 0
  | .byte | .testByte => 1
  | .word => 2
  | .frame => 3
  | .operand | .near | .testOperand => 4
  | .wideOperand | .address => 8

theorem Sizing.operandWidth_le (s : Sizing) : s.operandWidth ≤ 4 := by
  unfold operandWidth
  split_ifs <;> decide

theorem Immediate.width_le (s : Sizing) (i : Immediate) : i.width s ≤ i.most := by
  have operand := s.operandWidth_le
  cases i <;> simp only [width, most] <;> grind

theorem ModRM.displacementSize_le (m : ModRM) (sib : Option UInt8) :
    m.displacementSize sib ≤ 4 := by
  unfold displacementSize
  split_ifs <;> decide

/-- The address behind a ModRM byte has a SIB byte and four bytes of displacement. -/
def ModRM.IsWide (m : ModRM) (sib : UInt8) : Prop :=
  m.rm = 4 ∧ (m.mode = 2 ∨ m.mode = 0 ∧ sib &&& 7 = 5)

theorem ModRM.isWide_iff {m : ModRM} {sib : UInt8} :
    m.IsWide sib ↔ m.mode ≠ 3 ∧ m.rm = 4 ∧ m.displacementSize (some sib) = 4 := by
  unfold IsWide displacementSize
  obtain h | h | h | h := m.mode_cases <;> by_cases hr : m.rm = 4 <;> simp [h, hr]

namespace Operand

variable {use : ModRMUse} {o : Operand}

theorem length_bytes (o : Operand) :
    o.bytes.length = o.modrm.toList.length + o.sib.toList.length + o.displacement.length := by
  have modrm : (o.modrm.map ModRM.byte).toList.length = o.modrm.toList.length := by
    cases o.modrm <;> rfl
  rw [bytes, List.length_append, List.length_append, modrm]

theorem Fits.length_le (fits : o.Fits use) : o.bytes.length ≤ use.most := by
  have modrm : o.modrm.toList.length ≤ 1 := by cases o.modrm <;> simp
  have sib : o.sib.toList.length ≤ 1 := by cases o.sib <;> simp
  rw [o.length_bytes]
  cases use with
  | absent =>
    have noModrm : o.modrm = none := by simpa using fits.modrm
    have noSib : o.sib = none := by simpa using fits.sib
    have noDisplacement : o.displacement.length = 0 := fits.displacement
    simp [noModrm, noSib, noDisplacement]
  | registers =>
    have noSib : o.sib = none := by simpa using fits.sib
    have noDisplacement : o.displacement.length = 0 := fits.displacement
    simp [noSib, noDisplacement, ModRMUse.most, modrm]
  | addressing =>
    have displacement : o.displacement.length ≤ 4 := by
      rw [fits.displacement, if_pos rfl]
      cases o.modrm with
      | none => exact Nat.zero_le _
      | some m => exact m.displacementSize_le o.sib
    show _ ≤ 6
    omega

/-- An operand of the greatest length has all parts. -/
theorem Fits.length_eq_iff (fits : o.Fits .addressing) :
    o.bytes.length = 6 ↔ ∃ m sib, m.IsWide sib ∧ o.modrm = some m ∧ o.sib = some sib ∧
      o.displacement.length = 4 := by
  obtain ⟨m, hm⟩ := Option.isSome_iff_exists.1 (fits.modrm.2 (by decide))
  have size := fits.displacement
  have hasSib := fits.sib
  rw [o.length_bytes]
  simp only [hm, if_pos, Option.map_some, Option.getD_some] at size
  simp only [hm, Option.mem_some_iff, true_and, exists_eq_left'] at hasSib
  have short := m.displacementSize_le o.sib
  constructor
  · intro h
    rw [hm, Option.toList_some, List.length_singleton] at h
    cases hs : o.sib with
    | none =>
      rw [hs, Option.toList_none, List.length_nil] at h
      omega
    | some sib =>
      rw [hs] at size h hasSib short
      obtain ⟨addresses, hr⟩ := hasSib.1 rfl
      rw [Option.toList_some, List.length_singleton] at h
      exact ⟨m, sib, ModRM.isWide_iff.2 ⟨addresses, hr, by omega⟩, hm, rfl, by omega⟩
  · intro h
    obtain ⟨m, sib, -, hm, hs, len⟩ := h
    rw [hm, hs, len]
    rfl

end Operand

theorem exists_range_of_layoutIn {ranges : List OpcodeRange} {opcode : UInt8} {layout : Layout}
    (h : layoutIn ranges opcode = some layout) :
    ∃ r ∈ ranges, r.first ≤ opcode ∧ opcode ≤ r.last ∧ r.layout = layout := by
  obtain ⟨r, found, same⟩ := Option.map_eq_some_iff.1 h
  have within := List.find?_some found
  simp only [Bool.and_eq_true, decide_eq_true_eq] at within
  exact ⟨r, List.mem_of_find?_eq_some found, within.1, within.2, same⟩

/-- Only four opcodes of the one-byte map leave no room for all else that may stand before and
behind them. -/
theorem OpcodeMap.most_of_layout? {map : OpcodeMap} {opcode : UInt8} {layout : Layout}
    (h : map.layout? opcode = some layout) :
    map.escape.length + (layout.modrm.most + layout.immediate.most) ≤ 9 ∨
      map = .oneByte ∧ (opcode ∈ [0x69, 0x81, 0xc7] ∧ layout = withBoth .operand ∨
        opcode = 0xf7 ∧ layout = withBoth .testOperand) := by
  cases map with
  | oneByte =>
    obtain ⟨r, mem, low, high, rfl⟩ := exists_range_of_layoutIn h
    have ranges : ∀ r ∈ oneByteRanges, r.layout.modrm.most + r.layout.immediate.most ≤ 9 ∨
        r.first = r.last ∧ (r.first ∈ [0x69, 0x81, 0xc7] ∧ r.layout = withBoth .operand ∨
          r.first = 0xf7 ∧ r.layout = withBoth .testOperand) := by decide
    obtain room | ⟨single, opcodes⟩ := ranges r mem
    · exact .inl (by rw [escape, List.length_nil, Nat.zero_add]; exact room)
    · obtain rfl := UInt8.le_antisymm low (single ▸ high)
      exact .inr ⟨rfl, opcodes⟩
  | twoByte =>
    obtain ⟨r, mem, -, -, rfl⟩ := exists_range_of_layoutIn h
    have ranges : ∀ r ∈ twoByteRanges,
        1 + (r.layout.modrm.most + r.layout.immediate.most) ≤ 9 := by decide
    exact .inl (ranges r mem)
  | map38 =>
    obtain ⟨r, mem, -, -, rfl⟩ := exists_range_of_layoutIn h
    have ranges : ∀ r ∈ map38Ranges,
        2 + (r.layout.modrm.most + r.layout.immediate.most) ≤ 9 := by decide
    exact .inl (ranges r mem)
  | map3a =>
    obtain ⟨r, mem, -, -, rfl⟩ := exists_range_of_layoutIn h
    have ranges : ∀ r ∈ map3aRanges,
        2 + (r.layout.modrm.most + r.layout.immediate.most) ≤ 9 := by decide
    exact .inl (ranges r mem)

/-! ## Legacy words of sixteen bytes -/

theorem Sizing.operandWidth_eq_four_iff {seen : Prefixes} {rex : Rex} {m : Option ModRM} :
    (Sizing.of seen (some rex) m).operandWidth = 4 ↔ .operandSize ∉ seen ∨ rex.w := by
  unfold operandWidth Sizing.of
  by_cases narrow : LegacyPrefix.operandSize ∈ seen <;> cases wide : rex.w <;> simp [narrow, wide]

/-- Behind the ModRM byte, the opcode has an immediate of the operand size. -/
def TakesOperand (opcode : UInt8) (m : ModRM) : Prop :=
  opcode ∈ [0x69, 0x81, 0xc7] ∨ opcode = 0xf7 ∧ (m.reg = 0 ∨ m.reg = 1)

/-- The immediates of such opcodes have four bytes unless the operands are narrow. -/
theorem width_eq_four_iff {opcode : UInt8} {layout : Layout} {seen : Prefixes} {rex : Rex} {m : ModRM}
    (h : opcode ∈ [0x69, 0x81, 0xc7] ∧ layout = withBoth .operand ∨
      opcode = 0xf7 ∧ layout = withBoth .testOperand) :
    layout.immediate.width (.of seen (some rex) (some m)) = 4 ↔
      TakesOperand opcode m ∧ (.operandSize ∉ seen ∨ rex.w) := by
  rw [← Sizing.operandWidth_eq_four_iff (m := some m)]
  rcases h with ⟨mem, rfl⟩ | ⟨rfl, rfl⟩
  · exact (and_iff_right (.inl mem)).symm
  · have other : (0xf7 : UInt8) ∉ [0x69, 0x81, 0xc7] := by decide
    have takes : TakesOperand 0xf7 m ↔ (Sizing.of seen (some rex) (some m)).isTest := by
      simp [TakesOperand, Sizing.isTest, Sizing.of, other]
    rw [takes]
    show (if _ then _ else _) = 4 ↔ _
    split_ifs with isTest
    · exact (and_iff_right isTest).symm
    · exact ⟨nofun, fun h => absurd h.1 isTest⟩

/-- Four prefixes, REX, an opcode of the one-byte map and a wide address, behind which there is an
immediate of four bytes. -/
structure LegacyEncoding.IsLong (e : LegacyEncoding) (rex : Rex) (m : ModRM) (sib : UInt8) :
    Prop where
  seen : e.seen.length = 4
  rex_eq : e.rex = some rex
  map_eq : e.map = .oneByte
  modrm_eq : e.operand.modrm = some m
  sib_eq : e.operand.sib = some sib
  displacement : e.operand.displacement.length = 4
  opcode : TakesOperand e.opcode m
  wide : m.IsWide sib
  operandSize : .operandSize ∉ e.seen ∨ rex.w
  immediate : e.immediate.length = 4

theorem LegacyEncoding.length_bytes (e : LegacyEncoding) :
    e.bytes.length = e.seen.length + e.rex.toList.length +
      (e.map.escape.length + 1 + e.operand.bytes.length + e.immediate.length) := by
  have rex : (e.rex.map Rex.byte).toList.length = e.rex.toList.length := by
    cases e.rex <;> rfl
  simp only [bytes, body, List.length_append, List.length_cons, List.length_map, rex]
  omega

theorem LegacyEncoding.WellFormed.length_cases {e : LegacyEncoding} (wf : e.WellFormed) :
    e.bytes.length ≤ maxLength ∨
      e.bytes.length = maxLength + 1 ∧ ∃ rex m sib, e.IsLong rex m sib := by
  obtain ⟨layout, hl, fits, width⟩ := wf.defined
  have few : e.seen.length ≤ 4 := wf.few
  have operand := fits.length_le
  have immediate := layout.immediate.width_le (.of e.seen e.rex e.operand.modrm)
  have rexShort : e.rex.toList.length ≤ 1 := by cases e.rex <;> simp
  rw [e.length_bytes]
  unfold maxLength
  obtain room | ⟨hmap, opcodes⟩ := OpcodeMap.most_of_layout? hl
  · left
    omega
  · have escape : e.map.escape.length = 0 := by rw [hmap]; rfl
    have most : layout.modrm = .addressing ∧ layout.immediate.most = 4 := by
      obtain ⟨-, rfl⟩ | ⟨-, rfl⟩ := opcodes <;> exact ⟨rfl, rfl⟩
    rw [most.1] at operand fits
    change e.operand.bytes.length ≤ 6 at operand
    by_cases long : 15 < e.seen.length + e.rex.toList.length +
        (e.map.escape.length + 1 + e.operand.bytes.length + e.immediate.length)
    · right
      have operandLong : e.operand.bytes.length = 6 := by omega
      obtain ⟨m, sib, wide, hm, hs, displacement⟩ := fits.length_eq_iff.1 operandLong
      obtain ⟨rex, hrex⟩ : ∃ rex, e.rex = some rex := by
        refine Option.ne_none_iff_exists'.1 fun none => ?_
        rw [none, Option.toList_none, List.length_nil] at long
        omega
      have four : e.immediate.length = 4 := by omega
      rw [width, hm, hrex, width_eq_four_iff opcodes] at four
      refine ⟨by omega, rex, m, sib, ?_⟩
      exact ⟨by omega, hrex, hmap, hm, hs, displacement, four.1, wide, four.2, by omega⟩
    · left
      omega

/-- Four prefixes, REX, an opcode of the one-byte map whose immediate has four bytes, and a wide
address: twelve bytes before the immediate. -/
def LongLegacy (bytes : List UInt8) : Prop :=
  ∃ (seen : Prefixes) (rex : Rex) (opcode : UInt8) (m : ModRM) (sib : UInt8)
    (displacement : List UInt8),
    seen.length = 4 ∧ Rex.isRex rex.byte ∧ TakesOperand opcode m ∧ m.IsWide sib ∧
      displacement.length = 4 ∧ (.operandSize ∉ seen ∨ rex.w) ∧
        seen.map LegacyPrefix.byte ++ [rex.byte, opcode, m.byte, sib] ++ displacement <+: bytes

theorem LegacyEncoding.IsLong.front_eq {e : LegacyEncoding} {rex : Rex} {m : ModRM} {sib : UInt8}
    (long : e.IsLong rex m sib) : (Encoding.legacy e).front =
      e.seen.map LegacyPrefix.byte ++ [rex.byte, e.opcode, m.byte, sib] ++
        e.operand.displacement := by
  simp only [Encoding.front, bodyFront, Operand.bytes, long.rex_eq, long.map_eq, long.modrm_eq,
    long.sib_eq]
  simp [OpcodeMap.escape]

theorem exists_layout?_of_takesOperand {opcode : UInt8} {m : ModRM} (h : TakesOperand opcode m) :
    ∃ layout, OpcodeMap.oneByte.layout? opcode = some layout ∧ layout.modrm = .addressing ∧
      (opcode ∈ [0x69, 0x81, 0xc7] ∧ layout = withBoth .operand ∨
        opcode = 0xf7 ∧ layout = withBoth .testOperand) := by
  obtain mem | ⟨rfl, -⟩ := h
  · have found : ∀ b ∈ ([0x69, 0x81, 0xc7] : List UInt8),
        OpcodeMap.oneByte.layout? b = some (withBoth .operand) := by decide +kernel
    exact ⟨_, found opcode mem, rfl, .inl ⟨mem, rfl⟩⟩
  · exact ⟨withBoth .testOperand, by decide +kernel, rfl, .inr ⟨rfl, rfl⟩⟩

theorem Operand.fits_of_isWide {m : ModRM} {sib : UInt8} {displacement : List UInt8}
    (wide : m.IsWide sib) (len : displacement.length = 4) :
    (Operand.mk (some m) (some sib) displacement).Fits .addressing := by
  obtain ⟨addresses, hr, size⟩ := ModRM.isWide_iff.1 wide
  exact ⟨by simp, by simp [addresses, hr], by simp [len, size]⟩

theorem exists_longLegacy_iff {bytes : List UInt8} :
    (∃ e : LegacyEncoding, e.WellFormed ∧ maxLength < e.bytes.length ∧
      (Encoding.legacy e).front <+: bytes) ↔ LongLegacy bytes := by
  constructor
  · intro h
    obtain ⟨e, wf, beyond, front⟩ := h
    obtain short | ⟨-, rex, m, sib, long⟩ := wf.length_cases
    · exact absurd beyond (Nat.not_lt.2 short)
    · rw [long.front_eq] at front
      exact ⟨e.seen, rex, e.opcode, m, sib, e.operand.displacement, long.seen,
        wf.isRex rex long.rex_eq, long.opcode, long.wide, long.displacement, long.operandSize, front⟩
  · intro h
    obtain ⟨seen, rex, opcode, m, sib, displacement, four, isRex, takes, wide, len, size, front⟩ := h
    let e : LegacyEncoding :=
      ⟨seen, some rex, .oneByte, opcode, ⟨some m, some sib, displacement⟩, List.replicate 4 0⟩
    obtain ⟨layout, hl, addressing, opcodes⟩ := exists_layout?_of_takesOperand takes
    have fits := addressing ▸ Operand.fits_of_isWide wide len
    have width := (width_eq_four_iff opcodes).2 ⟨takes, size⟩
    have long : e.IsLong rex m sib := ⟨four, rfl, rfl, rfl, rfl, len, takes, wide, size, rfl⟩
    refine ⟨e, ⟨Nat.le_of_eq four, ?_, layout, hl, fits, width.symm⟩, ?_, ?_⟩
    · intro r same
      exact Option.some_inj.1 same ▸ isRex
    · rw [e.length_bytes, e.operand.length_bytes]
      simp [e, four, len, maxLength, OpcodeMap.escape]
    · rw [long.front_eq]
      exact front

/-! ## Vector words of sixteen bytes -/

/-- Behind vector escapes, the opcode has an immediate. -/
def TakesByte (map : OpcodeMap) (opcode : UInt8) : Prop :=
  map = .map3a ∨ map = .twoByte ∧ opcode ∈ [0x70, 0x71, 0x72, 0x73, 0xc2, 0xc4, 0xc5, 0xc6]

instance (map : OpcodeMap) (opcode : UInt8) : Decidable (TakesByte map opcode) :=
  inferInstanceAs (Decidable (_ ∨ _))

/-- Vector encodings have an immediate of one byte behind an operand, or none. -/
theorem OpcodeMap.immediate_of_vectorLayout? {map : OpcodeMap} {opcode : UInt8} {layout : Layout}
    (h : map.vectorLayout? opcode = some layout) :
    TakesByte map opcode ∧ layout = withBoth .byte ∨
      ¬ TakesByte map opcode ∧ layout.immediate = .none := by
  cases map with
  | oneByte => cases h
  | twoByte =>
    have all : ∀ opcode : UInt8, ∀ layout ∈ OpcodeMap.twoByte.vectorLayout? opcode,
        TakesByte .twoByte opcode ∧ layout = withBoth .byte ∨
          ¬ TakesByte .twoByte opcode ∧ layout.immediate = .none :=
      forall_byte (by decide +kernel)
    exact all opcode layout h
  | map38 =>
    cases h
    exact .inr ⟨by simp [TakesByte], rfl⟩
  | map3a =>
    cases h
    exact .inl ⟨.inl rfl, rfl⟩

theorem VectorEscape.Selects.length_le {v : VectorEscape} {payload : List UInt8} {map : OpcodeMap}
    (h : v.Selects payload map) : payload.length ≤ 3 ∧ (payload.length = 3 ↔ v = .evex) := by
  cases h with
  | vex2 b => simp
  | vex3 b c h => simp
  | evex b c d h => simp

/-- Four prefixes, a vector escape with three bytes of payload, an opcode and a wide address, behind
which there is an immediate. -/
structure VectorEncoding.IsLong (e : VectorEncoding) (m : ModRM) (sib : UInt8) : Prop where
  seen : e.seen.length = 4
  escape_eq : e.escape = .evex
  modrm_eq : e.operand.modrm = some m
  sib_eq : e.operand.sib = some sib
  displacement : e.operand.displacement.length = 4
  opcode : TakesByte e.map e.opcode
  wide : m.IsWide sib
  immediate : e.immediate.length = 1

theorem VectorEncoding.length_bytes (e : VectorEncoding) :
    e.bytes.length = e.seen.length +
      (e.payload.length + 2 + e.operand.bytes.length + e.immediate.length) := by
  simp only [bytes, body, List.length_append, List.length_cons, List.length_map]
  omega

theorem VectorEncoding.WellFormed.length_cases {e : VectorEncoding} (wf : e.WellFormed) :
    e.bytes.length ≤ maxLength ∨
      e.bytes.length = maxLength + 1 ∧ ∃ m sib, e.IsLong m sib := by
  obtain ⟨layout, hl, fits, width⟩ := wf.defined
  have few : e.seen.length ≤ 4 := wf.few
  obtain ⟨payload, evex⟩ := wf.selects.length_le
  rw [e.length_bytes]
  unfold maxLength
  obtain ⟨takes, rfl⟩ | ⟨-, none⟩ := OpcodeMap.immediate_of_vectorLayout? hl
  · have operand : e.operand.bytes.length ≤ 6 := fits.length_le
    have one : e.immediate.length = 1 := width
    by_cases long : 15 < e.seen.length +
        (e.payload.length + 2 + e.operand.bytes.length + e.immediate.length)
    · right
      have operandLong : e.operand.bytes.length = 6 := by omega
      obtain ⟨m, sib, wide, hm, hs, displacement⟩ := fits.length_eq_iff.1 operandLong
      refine ⟨by omega, m, sib, ?_⟩
      exact ⟨by omega, evex.1 (by omega), hm, hs, displacement, takes, wide, one⟩
    · left
      omega
  · left
    have operand := fits.length_le
    have most : layout.modrm.most ≤ 6 := by cases layout.modrm <;> decide
    have zero : e.immediate.length = 0 := by rw [width, none]; rfl
    omega

/-- Four prefixes that vector escapes may stand behind, the longest of these with its payload, an
opcode with an immediate, and a wide address: fifteen bytes before the immediate. -/
def LongVector (bytes : List UInt8) : Prop :=
  ∃ (seen : Prefixes) (a b c opcode : UInt8) (m : ModRM) (sib : UInt8)
    (displacement : List UInt8),
    seen.length = 4 ∧ (∀ p ∈ seen, p = .addressSize ∨ ∃ register, p = .segment register) ∧
      (a &&& 7 = 3 ∨
        a &&& 7 = 1 ∧ opcode ∈ [0x70, 0x71, 0x72, 0x73, 0xc2, 0xc4, 0xc5, 0xc6]) ∧
      m.IsWide sib ∧ displacement.length = 4 ∧
        seen.map LegacyPrefix.byte ++ [0x62, a, b, c, opcode, m.byte, sib] ++ displacement <+: bytes

theorem VectorEncoding.IsLong.front_eq {e : VectorEncoding} {m : ModRM} {sib : UInt8}
    (long : e.IsLong m sib) : (Encoding.vector e).front =
      e.seen.map LegacyPrefix.byte ++ 0x62 :: e.payload ++ [e.opcode, m.byte, sib] ++
        e.operand.displacement := by
  simp only [Encoding.front, bodyFront, Operand.bytes, long.escape_eq, long.modrm_eq, long.sib_eq]
  simp [VectorEscape.byte]

theorem LegacyPrefix.allowed_iff (p : LegacyPrefix) :
    (p ≠ .lock ∧ p ≠ .repne ∧ p ≠ .rep ∧ p ≠ .operandSize) ↔
      p = .addressSize ∨ ∃ register, p = .segment register := by
  cases p <;> simp

theorem VectorEscape.map?_eq_some_iff {select : UInt8} {map : OpcodeMap} :
    map? select = some map ↔ select = 1 ∧ map = .twoByte ∨ select = 2 ∧ map = .map38 ∨
      select = 3 ∧ map = .map3a := by
  unfold map?
  split_ifs <;> simp_all [eq_comm]

theorem VectorEscape.selects_evex_iff {payload : List UInt8} {map : OpcodeMap} :
    evex.Selects payload map ↔ ∃ a b c, payload = [a, b, c] ∧ map? (a &&& 7) = some map := by
  constructor
  · intro h
    cases h with
    | evex a b c h => exact ⟨a, b, c, rfl, h⟩
  · intro h
    obtain ⟨a, b, c, rfl, h⟩ := h
    exact .evex a b c h

theorem exists_longVector_iff {bytes : List UInt8} :
    (∃ e : VectorEncoding, e.WellFormed ∧ maxLength < e.bytes.length ∧
      (Encoding.vector e).front <+: bytes) ↔ LongVector bytes := by
  constructor
  · intro h
    obtain ⟨e, wf, beyond, front⟩ := h
    obtain short | ⟨-, m, sib, long⟩ := wf.length_cases
    · exact absurd beyond (Nat.not_lt.2 short)
    have selects := wf.selects
    rw [long.escape_eq, VectorEscape.selects_evex_iff] at selects
    obtain ⟨a, b, c, payload, select⟩ := selects
    rw [long.front_eq, payload] at front
    refine ⟨e.seen, a, b, c, e.opcode, m, sib, e.operand.displacement, long.seen,
      fun p mem => p.allowed_iff.1 (wf.allowed p mem), ?_, long.wide, long.displacement,
      by simpa using front⟩
    obtain map3a | ⟨twoByte, mem⟩ := long.opcode
    · rw [map3a, VectorEscape.map?_eq_some_iff] at select
      exact .inl (by simpa using select)
    · rw [twoByte, VectorEscape.map?_eq_some_iff] at select
      exact .inr ⟨by simpa using select, mem⟩
  · intro h
    obtain ⟨seen, a, b, c, opcode, m, sib, displacement, four, allowed, takes, wide, len, front⟩ := h
    obtain ⟨map, select, takes⟩ :
        ∃ map, VectorEscape.map? (a &&& 7) = some map ∧ TakesByte map opcode := by
      obtain three | ⟨one, mem⟩ := takes
      · exact ⟨.map3a, by rw [three]; rfl, .inl rfl⟩
      · exact ⟨.twoByte, by rw [one]; rfl, .inr ⟨rfl, mem⟩⟩
    have hl : map.vectorLayout? opcode = some (withBoth .byte) := by
      obtain ⟨layout, hl⟩ := exists_vectorLayout? select opcode
      obtain ⟨-, rfl⟩ | ⟨not, -⟩ := OpcodeMap.immediate_of_vectorLayout? hl
      · exact hl
      · exact absurd takes not
    let e : VectorEncoding :=
      ⟨seen, .evex, [a, b, c], map, opcode, ⟨some m, some sib, displacement⟩, [0]⟩
    have long : e.IsLong m sib := ⟨four, rfl, rfl, rfl, len, takes, wide, rfl⟩
    refine ⟨e, ⟨Nat.le_of_eq four, fun p mem => p.allowed_iff.2 (allowed p mem), ?_, ?_⟩, ?_, ?_⟩
    · exact VectorEscape.selects_evex_iff.2 ⟨a, b, c, rfl, select⟩
    · exact ⟨_, hl, Operand.fits_of_isWide wide len, rfl⟩
    · rw [e.length_bytes, e.operand.length_bytes]
      simp [e, four, len, maxLength]
    · rw [long.front_eq]
      simpa [e] using front

/-! ## Instructions that are too long -/

/-- A word of the grammar has at most fifteen bytes, or it has sixteen and some of them are its
immediate. -/
theorem Encoding.WellFormed.length_cases {e : Encoding} (wf : e.WellFormed) :
    e.bytes.length ≤ maxLength ∨
      e.bytes.length = maxLength + 1 ∧ e.front.length ≤ maxLength := by
  have parts : e.bytes.length = e.front.length + e.immediate.length := by
    rw [e.bytes_eq, List.length_append]
  cases e with
  | legacy e =>
    obtain short | ⟨long, rex, m, sib, isLong⟩ := LegacyEncoding.WellFormed.length_cases wf
    · exact .inl short
    · have four : (Encoding.legacy e).immediate.length = 4 := isLong.immediate
      exact .inr ⟨long, by change e.bytes.length = _ at parts; omega⟩
  | vector e =>
    obtain short | ⟨long, m, sib, isLong⟩ := VectorEncoding.WellFormed.length_cases wf
    · exact .inl short
    · have one : (Encoding.vector e).immediate.length = 1 := isLong.immediate
      exact .inr ⟨long, by change e.bytes.length = _ at parts; omega⟩

theorem exists_long_iff {bytes : List UInt8} :
    (∃ e : Encoding, e.WellFormed ∧ maxLength < e.bytes.length ∧ e.front <+: bytes) ↔
      LongLegacy bytes ∨ LongVector bytes := by
  rw [← exists_longLegacy_iff, ← exists_longVector_iff]
  constructor
  · intro h
    obtain ⟨e, wf, long, front⟩ := h
    cases e with
    | legacy e => exact .inl ⟨e, wf, long, front⟩
    | vector e => exact .inr ⟨e, wf, long, front⟩
  · rintro (⟨e, wf, long, front⟩ | ⟨e, wf, long, front⟩)
    · exact ⟨.legacy e, wf, long, front⟩
    · exact ⟨.vector e, wf, long, front⟩

section

variable {code : View} {start : Nat}

theorem decode_eq_tooLong_iff_wants :
    decode code start = .error .tooLong ↔
      ∃ length, Instruction.ofWindow (windowAt code start) = .error (.wants length) ∧
        maxLength < length := by
  rw [decode_eq_error_iff_wants id]
  refine exists_congr fun length => and_congr_right fun _ => ?_
  rcases Nat.lt_or_ge maxLength length with long | short
  · rw [rejection_of_lt long]
    exact iff_of_true rfl long
  · rw [rejection_of_le short]
    exact iff_of_false nofun (Nat.not_lt.2 short)

/-- What is too long is a word of sixteen bytes, all of which but the immediate must be there. -/
theorem decode_eq_tooLong_iff_encoding :
    decode code start = .error .tooLong ↔
      ∃ e : Encoding, e.WellFormed ∧ maxLength < e.bytes.length ∧
        e.front <+: code.toList.drop start := by
  rw [decode_eq_tooLong_iff_wants]
  constructor
  · intro h
    obtain ⟨length, halted, long⟩ := h
    obtain ⟨-, halted⟩ := ofWindow_eq_error_iff.1 halted
    have beyond : 0 + maxLength < length := by rwa [Nat.zero_add]
    obtain ⟨e, wf, front, -, rfl⟩ := (readStages_eq_wants_iff beyond).1 halted
    rw [Nat.zero_add] at long
    rw [windowAt_eq, List.prefix_take_iff] at front
    exact ⟨e, wf, long, front.1⟩
  · intro h
    obtain ⟨e, wf, long, front⟩ := h
    refine ⟨e.bytes.length, ?_, long⟩
    have short : e.front.length ≤ maxLength := by
      obtain within | ⟨-, short⟩ := wf.length_cases
      · exact absurd long (Nat.not_lt.2 within)
      · exact short
    have inWindow : e.front <+: windowAt code start := by
      rw [windowAt_eq, List.prefix_take_iff]
      exact ⟨front, short⟩
    have fits := length_windowAt_le code start
    have halted : readStages Reader ⟨0, windowAt code start⟩ = .error (.wants e.bytes.length) := by
      refine (readStages_eq_wants_iff ?_).2 ⟨e, wf, inWindow, ?_, (Nat.zero_add _).symm⟩
      · rwa [Nat.zero_add]
      · exact Nat.lt_of_le_of_lt fits long
    exact ofWindow_eq_error_iff.2 ⟨fun marker => readStages_ne_error_of_marker marker _ halted, halted⟩

end

/-- Four prefixes stand before whatever is too long. -/
theorem four_le_leadingPrefixes {bytes rest : List UInt8} {seen : Prefixes}
    (four : seen.length = 4) (front : seen.map LegacyPrefix.byte ++ rest <+: bytes) :
    4 ≤ (leadingPrefixes bytes).length := by
  obtain ⟨more, rfl⟩ := front
  rw [List.append_assoc, leadingPrefixes_append, List.length_append, List.length_map]
  omega

/-- **The greatest length, exactly.** What is rejected as too long is a word of the grammar that has
sixteen bytes, of which all before the immediate are there: four prefixes, REX and a wide address
with an immediate of four bytes, or four prefixes and the longest vector escape with a wide address
and an immediate of one. With fewer prefixes nothing is too long. -/
theorem decode_eq_tooLong_iff (code : View) (start : Nat) :
    (decode code start = .error .tooLong ↔
      LongLegacy (code.toList.drop start) ∨ LongVector (code.toList.drop start)) ∧
    (decode code start = .error .tooLong ↔ ∃ e : Encoding, e.WellFormed ∧ e.bytes.length = 16 ∧
      e.front <+: code.toList.drop start) ∧
    ((leadingPrefixes (code.toList.drop start)).length ≤ 3 →
      decode code start ≠ .error .tooLong) := by
  have forms : decode code start = .error .tooLong ↔ _ := decode_eq_tooLong_iff_encoding
  refine ⟨forms.trans exists_long_iff, forms.trans ?_, fun few long => ?_⟩
  · refine exists_congr fun e => and_congr_right fun wf => and_congr_left' ?_
    have cases := wf.length_cases
    unfold maxLength at cases ⊢
    omega
  · rcases exists_long_iff.1 (forms.1 long) with h | h
    · obtain ⟨seen, rex, opcode, m, sib, displacement, four, -, -, -, -, -, front⟩ := h
      rw [List.append_assoc] at front
      have prefixes := four_le_leadingPrefixes four front
      omega
    · obtain ⟨seen, a, b, c, opcode, m, sib, displacement, four, -, -, -, -, front⟩ := h
      rw [List.append_assoc] at front
      have prefixes := four_le_leadingPrefixes four front
      omega

/-- A multiplication by an immediate from a wide address fits behind three segment overrides, but
not behind four. -/
theorem decode_eq_tooLong_iff_of_imul :
    decode ⟨#[0x2e, 0x2e, 0x2e, 0x48, 0x69, 0x84, 0x24, 1, 0, 0, 0, 2, 0, 0, 0]⟩ 0 ≠
      .error .tooLong ∧
    decode ⟨#[0x2e, 0x2e, 0x2e, 0x2e, 0x48, 0x69, 0x84, 0x24, 1, 0, 0, 0]⟩ 0 = .error .tooLong := by
  constructor
  · exact (decode_eq_tooLong_iff _ _).2.2 (by decide)
  · refine (decode_eq_tooLong_iff _ _).1.2 (.inl ?_)
    refine ⟨List.replicate 4 (.segment .cs), ⟨0x48⟩, 0x69, ⟨0x84⟩, 0x24, [1, 0, 0, 0], ?_⟩
    exact ⟨rfl, rfl, .inl (by decide), ⟨rfl, .inl rfl⟩, rfl, .inl (by decide), ⟨[], rfl⟩⟩

end CodeSpans.X86
