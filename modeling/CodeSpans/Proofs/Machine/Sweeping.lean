import CodeSpans.Proofs.Machine.Decoding
import CodeSpans.Proofs.Machine.Indexing
import CodeSpans.Proofs.Sweep.Tiling

/-!
# Sweeping on words

Sections are swept with offsets that are words, and what is shown of an instruction is cut out of
its section by words. The end of an instruction is within its section, so a sweep never leaves the
words. `RunsExactly` puts all the work on an image together: the indexing, the names and contents,
the sweeps, the bytes of their instructions and how many they are. Of an image of less than half
the size that words can say, all of it is `Run.of` of the work on numbers
(`ofImage_runs_exactly`).
-/

namespace CodeSpans.Machine

open X86 Elf

/-! ## The work -/

/-- The sweep from an offset on, behind the instructions found so far, last first. -/
def sweepFrom {ε : Type} (code : View) (found : List Span) (offset : UInt64) : Run ε Sweep := do
  let ⟨size, _⟩ ← length code
  if offset < size then
    match ← attempt (decode code offset) with
    | .error reason => return ⟨found.reverse, some ⟨offset.toNat, reason⟩⟩
    | .ok span =>
      if span.length = 0 then
        return ⟨found.reverse, some ⟨offset.toNat, .noProgress⟩⟩
      else
        let ⟨next, _⟩ ← add offset span.length.toUInt64
        sweepFrom code (span :: found) next
  else
    return ⟨found.reverse, none⟩
termination_by code.size - offset.toNat
decreasing_by
  have : span.length.toNat ≠ 0 := fun zero => by simp_all [← UInt8.toNat_inj]
  simp only [UInt64.lt_iff_toNat_lt, UInt8.toNat_toUInt64] at *
  omega

def sweep {ε : Type} (code : View) : Run ε Sweep :=
  sweepFrom code [] 0

def sweepSection (t : SectionTable) (s : Section) : Run Error SectionSweep := do
  let name ← name t s
  let code ← content t.image s
  let found ← sweep code
  return { found with index := s.index, name, fileOffset := s.fileOffset, size := s.size, code }

/-- The bytes of an instruction, cut out of its code. -/
def bytesIn {ε : Type} (span : Span) (code : View) : Run ε (List UInt8) := do
  let start ← toWord span.start
  let next ← add start span.length.toUInt64
  return (← range code start next).toList

/-- Number of bytes in some instructions, added up from the first. -/
def extent {ε : Type} (spans : List Span) : Run ε Nat := do
  let bytes ← spans.foldlM (fun bytes span => return (← add bytes span.length.toUInt64).val) 0
  return bytes.toNat

/-! ## Agreement -/

section

variable {ε : Type} {code : View} (short : code.size < 2 ^ 63)

include short

/-- One step of a sweep, with the answer of the decoder on numbers. -/
theorem sweepFrom_step (found : List Span) (offset : UInt64) :
    (sweepFrom code found offset : Run ε Sweep) =
      if offset.toNat < code.size then
        match X86.decode code offset.toNat with
        | .error reason => .of (.ok ⟨found.reverse, some ⟨offset.toNat, reason⟩⟩)
        | .ok span =>
          if span.length = 0 then
            .of (.ok ⟨found.reverse, some ⟨offset.toNat, .noProgress⟩⟩)
          else
            add offset span.length.toUInt64 >>= fun next => sweepFrom code (span :: found) next
      else
        .of (.ok ⟨found.reverse, none⟩) := by
  have words : 2 ^ 63 < UInt64.size := by decide
  obtain ⟨⟨size, size_eq⟩, measured⟩ := length_eq (ε := ε) (v := code) (by omega)
  have within_iff : offset < size ↔ offset.toNat < code.size := by
    rw [UInt64.lt_iff_toNat_lt, size_eq]
  rw [sweepFrom, measured, Run.of_ok_bind]
  by_cases within : offset < size
  · have inside := within_iff.1 within
    simp only [if_pos within, if_pos inside]
    rw [decode_eq inside short, attempt_of, Run.of_ok_bind]
    cases X86.decode code offset.toNat with
    | error reason => rfl
    | ok span => rfl
  · simp only [if_neg within, if_neg (mt within_iff.2 within)]
    rfl

/-- The walk of the decoder is swept on words as it stands. -/
theorem sweepFrom_eq {offset : Nat} {spans : List Span} {stop : Option Stop}
    (w : Walk X86.decode code offset spans stop) {place : UInt64} (place_eq : place.toNat = offset)
    (found : List Span) :
    (sweepFrom code found place : Run ε Sweep) = .of (.ok ⟨found.reverse ++ spans, stop⟩) := by
  have words : 2 ^ 63 < UInt64.size := by decide
  induction w generalizing place found with
  | done behind =>
    subst place_eq
    rw [sweepFrom_step short, if_neg (Nat.not_lt.2 behind), List.append_nil]
  | rejected within answer =>
    subst place_eq
    rw [sweepFrom_step short, if_pos within, answer]
    simp
  | stuck within answer empty =>
    subst place_eq
    rw [sweepFrom_step short, if_pos within, answer]
    simp [empty]
  | @step offset span _ _ within answer progress rest ih =>
    subst place_eq
    obtain ⟨start, -, -, ends⟩ := decode_bounds answer
    rw [Span.next, start, ← UInt8.toNat_toUInt64] at ends
    obtain ⟨⟨next, next_eq⟩, added⟩ :=
      exists_add (ε := ε) (a := place) (b := span.length.toUInt64) (by omega)
    rw [sweepFrom_step short, if_pos within, answer]
    simp only [if_neg progress, added, Run.of_ok_bind]
    rw [UInt8.toNat_toUInt64] at next_eq
    rw [ih next_eq]
    simp

theorem sweep_eq : (sweep code : Run ε Sweep) = .of (.ok (Sweep.run X86.decode code)) := by
  unfold sweep
  rw [sweepFrom_eq short (Sweep.walk X86.decode code) rfl]
  rfl

/-- An instruction within its code is cut out of it by words. -/
theorem bytesIn_eq {span : Span} (within : span.next ≤ code.size) :
    (bytesIn span code : Run ε _) = .of (.ok (span.bytesIn code)) := by
  have words : 2 ^ 63 < UInt64.size := by decide
  have next_eq : span.next = span.start + span.length.toNat := rfl
  obtain ⟨⟨start, start_eq⟩, started⟩ := exists_toWord (ε := ε) (n := span.start) (by omega)
  obtain ⟨⟨next, ends⟩, added⟩ := exists_add (ε := ε) (a := start) (b := span.length.toUInt64)
    (by rw [UInt8.toNat_toUInt64]; omega)
  have ends' : next.toNat = span.next := by
    rw [ends, UInt8.toNat_toUInt64, start_eq, next_eq]
  unfold bytesIn Span.bytesIn
  rw [started, Run.of_ok_bind]
  dsimp only
  rw [added, Run.of_ok_bind]
  dsimp only
  rw [range_eq (by omega) (by omega), start_eq, ends']
  rfl

end

/-- Adding up from a word that leaves room for all lengths. -/
theorem exists_foldlM_add {ε : Type} (spans : List Span) (before : UInt64)
    (fits : before.toNat + CodeSpans.extent spans < UInt64.size) :
    ∃ w, (spans.foldlM (fun bytes span => return (← add bytes span.length.toUInt64).val) before :
        Run ε UInt64) = .of (.ok w) ∧ w.toNat = before.toNat + CodeSpans.extent spans := by
  induction spans generalizing before with
  | nil => exact ⟨before, rfl, rfl⟩
  | cons span spans ih =>
    rw [extent_cons, ← UInt8.toNat_toUInt64] at fits
    obtain ⟨⟨w, w_eq⟩, added⟩ :=
      exists_add (ε := ε) (a := before) (b := span.length.toUInt64) (by omega)
    obtain ⟨total, summed, total_eq⟩ := ih w (by omega)
    refine ⟨total, ?_, ?_⟩
    · rw [List.foldlM_cons, added]
      exact summed
    · rw [extent_cons, total_eq, w_eq, UInt8.toNat_toUInt64, Nat.add_assoc]

theorem extent_eq {ε : Type} {spans : List Span} (fits : CodeSpans.extent spans < UInt64.size) :
    (extent spans : Run ε _) = .of (.ok (CodeSpans.extent spans)) := by
  have zero : (0 : UInt64).toNat = 0 := rfl
  obtain ⟨total, summed, total_eq⟩ :=
    exists_foldlM_add (ε := ε) spans 0 (by omega)
  unfold extent
  rw [summed, Run.of_ok_bind, total_eq, zero, Nat.zero_add]
  rfl

/-! ## Sections -/

theorem sweepSection_eq {t : SectionTable} (short : t.image.size < 2 ^ 63) {s : Section}
    (content : s.kind ≠ noBits) : sweepSection t s = .of (t.sweep X86.decode s) := by
  have words : 2 ^ 63 < UInt64.size := by decide
  unfold sweepSection SectionTable.sweep SectionTable.content
  rw [name_eq short, content_eq (by omega)]
  refine Run.of_bind fun name _ => ?_
  refine Run.of_bind fun code hcode => ?_
  obtain ⟨inImage, same⟩ := (Section.content_eq_ok_iff content).1 hcode
  have code_size := View.size_of_cut inImage same
  rw [sweep_eq (by omega)]
  rfl

/-- What an image is indexed for, done on words as on numbers and without a fault. -/
structure RunsExactly (t : SectionTable) : Prop where
  names : ∀ s ∈ t.sections, name t s = .of (t.name s)
  finds : ∀ wanted, find t wanted = .of (t.find wanted)
  contents : ∀ s ∈ t.sections, content t.image s = .of (t.content s)
  sweeps : ∀ s ∈ t.executable, sweepSection t s = .of (t.sweep X86.decode s)
  bytes : ∀ s ∈ t.executable, ∀ r, t.sweep X86.decode s = .ok r → ∀ span ∈ r.spans,
    (bytesIn span r.code : Run Error _) = .of (.ok (r.bytesOf span))
  counts : ∀ s ∈ t.executable, ∀ r, t.sweep X86.decode s = .ok r →
    (extent r.spans : Run Error _) = .of (.ok r.byteCount)

/-- **Words suffice**: every image of less than half the size that words can say is indexed on words
as on numbers, and if it is indexed, then its sections are named, found, sliced and swept, and the
instructions of its code are cut out and counted, as on numbers, and without a fault. -/
theorem ofImage_runs_exactly {image : View} (short : image.size < 2 ^ 63) :
    ofImage image = .of (SectionTable.ofImage image) ∧
      ∀ t, SectionTable.ofImage image = .ok t → RunsExactly t := by
  have words : 2 ^ 63 < UInt64.size := by decide
  refine ⟨ofImage_eq (by omega), fun t indexed => ?_⟩
  have same := SectionTable.image_of_ofImage indexed
  rw [← same] at short
  have covers : ∀ s ∈ t.executable, ∀ r, t.sweep X86.decode s = .ok r → r.Covers t.image :=
    fun s mem r => SectionTable.covers_of_sweep (SectionTable.kind_of_mem_executable indexed mem).2
  refine ⟨fun s _ => name_eq short s, find_eq short, fun s _ => content_eq (by omega) s, ?_, ?_, ?_⟩
  · intro s mem
    exact sweepSection_eq short (SectionTable.kind_of_mem_executable indexed mem).2
  · intro s mem r swept span found
    have c := covers s mem r swept
    have code_short : r.code.size < 2 ^ 63 := by
      rw [c.size_eq]
      have := c.inImage
      omega
    exact bytesIn_eq code_short (decode_bounds (c.tiles.decoded span found)).2.2.2
  · intro s mem r swept
    have c := covers s mem r swept
    have within := c.tiles.within
    have := c.size_eq
    have := c.inImage
    rw [Sweep.byteCount_eq] at within
    exact extent_eq (by omega)

/-- Two sections are swept on words, the first up to an instruction that its end cuts. -/
theorem ofImage_runs_exactly_of_two_sections :
    ∃ image t, image.size < 2 ^ 63 ∧ SectionTable.ofImage image = .ok t ∧
      t.executable.length = 2 ∧ ofImage image = .of (.ok t) ∧ RunsExactly t := by
  have indexes : (do
      let t ← SectionTable.ofImage
        (Image.mk machineX86_64 [.code ".text" [0x90, 0xc3, 0x0f], .code ".fini" [0xc3]]).toView
      return t.executable.length) = Except.ok 2 := by
    decide +kernel
  obtain ⟨t, indexed, two⟩ := Answer.bind_eq_ok_iff.1 indexes
  have short : (Image.mk machineX86_64
      [.code ".text" [0x90, 0xc3, 0x0f], .code ".fini" [0xc3]]).toView.size < 2 ^ 63 := by
    decide +kernel
  obtain ⟨exact, runs⟩ := ofImage_runs_exactly short
  rw [indexed] at exact
  exact ⟨_, t, short, indexed, Except.ok.inj two, exact, runs t indexed⟩

end CodeSpans.Machine
