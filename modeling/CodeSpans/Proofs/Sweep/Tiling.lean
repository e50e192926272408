import CodeSpans.Elf.Image
import CodeSpans.Proofs.Sweep.Sections
import CodeSpans.Proofs.Sweep.Walk
import CodeSpans.Proofs.X86.Window
import Mathlib.Data.List.Chain

/-!
# Tilings

The instructions that a sweep finds lie end to end from the start of the code to the place where
the sweep ends (`Sweep.Tiles`). For walks this takes no more of the decoder than `Decoder.Exact`:
an instruction it finds is where it was asked for, has bytes, and ends within the code. `decode` is
such a decoder, and what is swept of a section is what the section has in the image
(`SectionSweep.Covers`).
-/

namespace CodeSpans

open X86 Elf

/-- What a decoder finds is where it was asked for, has bytes, and ends within the code. -/
def Decoder.Exact (decoder : Decoder) : Prop :=
  ∀ ⦃code : View⦄ ⦃start : Nat⦄ ⦃span : Span⦄, decoder code start = .ok span →
    span.start = start ∧ 0 < span.length.toNat ∧ span.next ≤ code.size

theorem decode_exact : Decoder.Exact decode := by
  intro code start span answer
  obtain ⟨same, some, -, within⟩ := decode_bounds answer
  exact ⟨same, some, within⟩

/-! ## Walks of exact decoders -/

section

variable {decoder : Decoder} {code : View} {offset : Nat} {spans : List Span} {stop : Option Stop}
  (sound : decoder.Exact)

include sound

/-- Each instruction is the answer at its own start, behind those before it. -/
theorem Walk.answer_of_append {span : Span} {before behind : List Span}
    (w : Walk decoder code offset (before ++ span :: behind) stop) :
    span.start = offset + extent before ∧ decoder code span.start = .ok span := by
  obtain ⟨-, answer, -, -⟩ := w.behind.step_inv
  have start := (sound answer).1
  exact ⟨start, start ▸ answer⟩

theorem Walk.answer_of_mem (w : Walk decoder code offset spans stop) {span : Span}
    (mem : span ∈ spans) : decoder code span.start = .ok span := by
  obtain ⟨before, behind, rfl⟩ := List.append_of_mem mem
  exact (w.answer_of_append sound).2

theorem Walk.start_of_head? (w : Walk decoder code offset spans stop) {span : Span}
    (head : span ∈ spans.head?) : span.start = offset := by
  obtain ⟨behind, rfl⟩ := List.head?_eq_some_iff.1 head
  exact (sound w.step_inv.2.1).1

theorem Walk.next_of_getLast? (w : Walk decoder code offset spans stop) {span : Span}
    (last : span ∈ spans.getLast?) : span.next = offset + extent spans := by
  obtain ⟨before, rfl⟩ := List.getLast?_eq_some_iff.1 last
  rw [Span.next, (w.answer_of_append sound).1, extent_append, extent_cons, extent_nil]
  omega

theorem Walk.isChain (w : Walk decoder code offset spans stop) :
    spans.IsChain fun span following => following.start = span.next := by
  induction w with
  | done _ | rejected _ _ | stuck _ _ _ => exact .nil
  | step within answer progress rest ih =>
    refine List.isChain_cons.2 ⟨fun following head => ?_, ih⟩
    rw [rest.start_of_head? sound head, Span.next, (sound answer).1]

theorem Walk.extent_le (w : Walk decoder code offset spans stop) (fits : offset ≤ code.size) :
    offset + extent spans ≤ code.size := by
  induction w with
  | done _ | rejected _ _ | stuck _ _ _ => exact fits
  | step within answer progress rest ih =>
    obtain ⟨start, -, ends⟩ := sound answer
    rw [Span.next, start] at ends
    rw [extent_cons, ← Nat.add_assoc]
    exact ih ends

/-- A walk without stop ends where the code does. -/
theorem Walk.extent_eq (w : Walk decoder code offset spans none) (fits : offset ≤ code.size) :
    offset + extent spans = code.size := by
  have within := w.extent_le sound fits
  cases w.at_end with
  | done behind => omega

/-- A walk with a stop ends where the decoder finds nothing. -/
theorem Walk.stop_eq {s : Stop} (w : Walk decoder code offset spans (some s)) :
    s.offset = offset + extent spans ∧ s.offset < code.size ∧
      decoder code s.offset = .error s.reason := by
  cases w.at_end with
  | rejected within answer => exact ⟨rfl, within, answer⟩
  | stuck within answer empty =>
    have some := (sound answer).2.1
    rw [empty] at some
    exact absurd some (by decide)

end

/-! ## Sweeps of code -/

/-- The instructions of a sweep lie end to end from the start of the code to the end of the sweep.
That is the end of the code, or else an offset at which nothing can be decoded. -/
structure Sweep.Tiles (code : View) (s : Sweep) : Prop where
  lengths : ∀ span ∈ s.spans, 1 ≤ span.length.toNat ∧ span.length.toNat ≤ maxLength
  starts : ∀ span ∈ s.spans.head?, span.start = 0
  linked : s.spans.IsChain fun span following => following.start = span.next
  decoded : ∀ span ∈ s.spans, decode code span.start = .ok span
  ends : ∀ span ∈ s.spans.getLast?, span.next = s.byteCount
  within : s.byteCount ≤ code.size
  whole : s.stop = none → s.byteCount = code.size
  stopped : ∀ stop ∈ s.stop, stop.offset = s.byteCount ∧ s.byteCount < code.size ∧
    decode code stop.offset = .error stop.reason ∧ stop.reason ≠ .noProgress
  isComplete_iff : s.isComplete ↔ s.byteCount = code.size

theorem Sweep.run_tiles (code : View) : (Sweep.run decode code).Tiles code := by
  have w := Sweep.walk decode code
  generalize Sweep.run decode code = s at w
  have stopped : ∀ stop ∈ s.stop, stop.offset = s.byteCount ∧ s.byteCount < code.size ∧
      decode code stop.offset = .error stop.reason ∧ stop.reason ≠ .noProgress := by
    intro stop isStop
    rw [show s.stop = some stop from isStop] at w
    obtain ⟨place, within, answer⟩ := w.stop_eq decode_exact
    rw [Nat.zero_add, ← s.byteCount_eq] at place
    refine ⟨place, by omega, answer, fun same => decode_ne_noProgress (same ▸ answer)⟩
  have whole : s.stop = none → s.byteCount = code.size := by
    intro none
    rw [none] at w
    rw [← w.extent_eq decode_exact (Nat.zero_le _), Nat.zero_add, s.byteCount_eq]
  refine ⟨fun span mem => ?_, fun span => w.start_of_head? decode_exact, w.isChain decode_exact,
    fun span => w.answer_of_mem decode_exact, fun span last => ?_, ?_, whole, stopped, ?_⟩
  · obtain ⟨-, some, short, -⟩ := decode_bounds (w.answer_of_mem decode_exact mem)
    exact ⟨some, short⟩
  · rw [w.next_of_getLast? decode_exact last, Nat.zero_add, s.byteCount_eq]
  · rw [s.byteCount_eq, ← Nat.zero_add (extent _)]
    exact w.extent_le decode_exact (Nat.zero_le _)
  · rw [isComplete, Option.isNone_iff_eq_none]
    refine ⟨whole, fun all => Option.eq_none_iff_forall_not_mem.2 fun stop isStop => ?_⟩
    exact absurd all (Nat.ne_of_lt (stopped stop isStop).2.1)

/-! ## Sweeps of sections -/

/-- What was swept is what a section has in the image, and its sweep tiles it. -/
structure SectionSweep.Covers (image : View) (s : SectionSweep) : Prop where
  inImage : s.fileOffset.toNat + s.size.toNat ≤ image.size
  code_eq : s.code.toList = (image.toList.drop s.fileOffset.toNat).take s.size.toNat
  size_eq : s.code.size = s.size.toNat
  tiles : s.toSweep.Tiles s.code

theorem Elf.SectionTable.covers_of_sweep {t : SectionTable} {s : Section} {r : SectionSweep}
    (content : s.kind ≠ noBits) (h : t.sweep decode s = .ok r) : r.Covers t.image := by
  obtain ⟨name, code, -, hcode, rfl⟩ := SectionTable.sweep_eq_ok_iff.1 h
  obtain ⟨inImage, same⟩ := (Section.content_eq_ok_iff content).1 hcode
  exact ⟨inImage, same, View.size_of_cut inImage same, Sweep.run_tiles code⟩

/-- **Tiling, end to end**: of an image that is indexed, the sweeps of the executable sections, and
of any sections that have content, are swept from the image and tile what was swept. -/
theorem Strategy.run_covers {image : View} {t : SectionTable}
    (indexed : SectionTable.ofImage image = .ok t) (strategy : Strategy) :
    (∀ d, strategy.run t decode t.executable = .ok d → ∀ r ∈ d.sections, r.Covers image) ∧
    (∀ sections : List Section, (∀ s ∈ sections, s ∈ t.sections ∧ s.kind ≠ noBits) →
      ∀ d, strategy.run t decode sections = .ok d → ∀ r ∈ d.sections, r.Covers image) := by
  have covers : ∀ sections : List Section, (∀ s ∈ sections, s ∈ t.sections ∧ s.kind ≠ noBits) →
      ∀ d, strategy.run t decode sections = .ok d → ∀ r ∈ d.sections, r.Covers image := by
    intro sections content d answer r mem
    obtain ⟨s, hs, swept⟩ := Answer.exists_of_mem (Strategy.run_eq_ok_iff.1 answer) mem
    rw [← SectionTable.image_of_ofImage indexed]
    exact SectionTable.covers_of_sweep (content s hs).2 swept
  exact ⟨covers _ fun s hs => SectionTable.kind_of_mem_executable indexed hs, covers⟩

/-- Two sections are swept, the first up to an instruction that its end cuts. -/
theorem Strategy.run_covers_of_two_sections :
    ∃ image t d, SectionTable.ofImage image = .ok t ∧ t.executable.length = 2 ∧
      Strategy.linear.run t decode t.executable = .ok d ∧ d.instructionCount = 3 ∧
      ∀ r ∈ d.sections, r.Covers image := by
  have answer : (do
      let t ← SectionTable.ofImage
        (Image.mk machineX86_64 [.code ".text" [0x90, 0xc3, 0x0f], .code ".fini" [0xc3]]).toView
      let d ← Strategy.linear.run t decode t.executable
      return (t.executable.length, d.instructionCount)) = Except.ok (2, 3) := by
    decide +kernel
  obtain ⟨t, indexed, answer⟩ := Answer.bind_eq_ok_iff.1 answer
  obtain ⟨d, swept, same⟩ := Answer.bind_eq_ok_iff.1 answer
  obtain ⟨two, three⟩ := Prod.mk.inj (Except.ok.inj same)
  exact ⟨_, t, d, indexed, two, swept, three, (Strategy.run_covers indexed .linear).1 d swept⟩

end CodeSpans
