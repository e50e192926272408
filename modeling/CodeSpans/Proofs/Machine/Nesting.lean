import CodeSpans.Proofs.Bytes.Nesting
import CodeSpans.Proofs.Machine.Fault

/-!
# Views of views in words

Chains of cuts, with the sums and comparisons of 64-bit words. As long as the bytes of the first view
can be counted in a word, no sum wraps round into a view and no read of a view at any depth faults
(`Machine.nest_eq`, `Machine.exact_of_short`); so what `View.nest` and the reads of its views do is
what words do (`Machine.nesting`).
-/

namespace CodeSpans.Machine

/-- All bytes from an offset on. -/
def tail (v : View) (offset : UInt64) : Run Overrun View := do
  let size ← length v
  if size.val < offset then throw ⟨offset.toNat, 0, size.val.toNat⟩ else range v offset size.val

/-- The view that a chain of cuts leads to. -/
def nest (v : View) : List Cut → Run Overrun View
  | [] => pure v
  | c :: cuts => do nest (← slice v c.offset c.length) cuts

/-- Reads of a view in words are those in numbers. -/
structure Exact (v : View) : Prop where
  slice (offset count : UInt64) : slice v offset count = .of (v.slice offset.toNat count.toNat)
  tail (offset : UInt64) : tail v offset = .of (v.tail offset.toNat)
  byte (offset : UInt64) : byte v offset = .of (v.byte offset.toNat)
  word16 (offset : UInt64) : word16 v offset = .of (v.word16 offset.toNat)
  word32 (offset : UInt64) : word32 v offset = .of (v.word32 offset.toNat)
  word64 (offset : UInt64) : word64 v offset = .of (v.word64 offset.toNat)

section

variable {v : View} (short : v.size < UInt64.size)

include short

theorem tail_eq (offset : UInt64) : tail v offset = .of (v.tail offset.toNat) := by
  obtain ⟨⟨size, sizeEq⟩, measured⟩ := length_eq (ε := Overrun) short
  unfold tail View.tail
  rw [measured, Run.of_ok_bind]
  simp only [UInt64.lt_iff_toNat_lt, sizeEq]
  by_cases within : offset.toNat ≤ v.size
  · rw [if_neg (Nat.not_lt.2 within), if_pos within,
      range_eq (by omega) (by omega), sizeEq]
  · rw [if_pos (Nat.not_le.1 within), if_neg within]
    rfl

theorem exact_of_short : Exact v where
  slice := slice_eq short
  tail := tail_eq short
  byte := byte_eq short
  word16 := word16_eq short
  word32 := word32_eq short
  word64 := word64_eq short

end

theorem short_of_slice {v w : View} {offset : Nat} {count : UInt64}
    (h : v.slice offset count.toNat = .ok w) : w.size < UInt64.size := by
  rw [View.size_of_slice h]
  exact count.toNat_lt

/-- The length of a cut is a word, and so the size of its view is. -/
theorem nest_eq {v : View} (short : v.size < UInt64.size) (cuts : List Cut) :
    nest v cuts = .of (v.nest cuts) := by
  induction cuts generalizing v with
  | nil => rfl
  | cons c cuts ih =>
    rw [nest, slice_eq short]
    exact Run.of_bind fun w cut => ih (short_of_slice cut)

theorem short_of_nest {v w : View} (short : v.size < UInt64.size) {cuts : List Cut}
    (h : v.nest cuts = .ok w) : w.size < UInt64.size := by
  have s := View.slice_sees (View.nest_eq_ok_iff.1 h).2
  have within := s.within
  rw [s.size_eq]
  omega

/-- What chains of cuts lead to and what is read there. -/
structure Nesting (v : View) (cuts : List Cut) : Prop where
  exact : nest v cuts = .of (v.nest cuts)
  leads_iff : (∃ w, v.nest cuts = .ok w) ↔ Cut.Nested v.size cuts
  sees : ∀ w, v.nest cuts = .ok w →
    View.Sees v (Cut.depth cuts) (Cut.innermost v.size cuts) w ∧ Exact w
  /-- A chain that fails repeats the cut for which the view before it has no room. -/
  fails_iff : ∀ o, v.nest cuts = .error o ↔
    ∃ before c behind w, cuts = before ++ c :: behind ∧ v.nest before = .ok w ∧
      ¬c.Fits w.size ∧ o = c.overrun w.size
  /-- A cut without room leaves the view at hand as it is. -/
  unchanged : ∀ c behind, ¬c.Fits (v.after cuts).size →
    (v.after cuts).cut c = .error (c.overrun (v.after cuts).size) ∧
      v.after (cuts ++ c :: behind) = v.after (cuts ++ behind)
  after_eq : ∀ w, v.nest cuts = .ok w → v.after cuts = w
  /-- The view at hand is that of a chain, whatever cuts had no room. -/
  at_hand : ∃ kept, kept.Sublist cuts ∧ v.nest kept = .ok (v.after cuts)

/-- **Views of views.** A chain of cuts leads to a view just if each cut, by the exact sum of its
offset and its length, has room in the view before it. The view that it leads to shows the bytes of
the first view from the sum of the offsets on, as many as the last length: whatever is read of it
within them is what is read there of the first view, and whatever is not within them is refused, with
the offset and the length asked for and the size of the view. A chain that fails does so in the same
way, and a cut without room changes nothing for those behind it. -/
theorem nesting (v : View) (short : v.size < UInt64.size) (cuts : List Cut) : Nesting v cuts where
  exact := nest_eq short cuts
  leads_iff := View.exists_nest_iff
  sees _ h :=
    ⟨View.slice_sees (View.nest_eq_ok_iff.1 h).2, exact_of_short (short_of_nest short h)⟩
  fails_iff _ := View.nest_eq_error_iff
  unchanged _ _ full := ⟨View.cut_eq_error full, View.after_of_not_fits full⟩
  after_eq _ := View.after_of_nest
  at_hand := View.exists_nest_after v cuts

/-- Nine bytes, of which a cut of a cut shows four; its end is not theirs, and a sum that comes round
to it is refused. -/
theorem nesting_of_nine_bytes :
    Nesting ⟨#[0, 1, 2, 3, 4, 5, 6, 7, 8]⟩ [⟨1, 7⟩, ⟨2, 4⟩] ∧
      View.nest ⟨#[0, 1, 2, 3, 4, 5, 6, 7, 8]⟩ [⟨1, 7⟩, ⟨2, 4⟩] = .ok ⟨#[3, 4, 5, 6]⟩ ∧
      View.nest ⟨#[0, 1, 2, 3, 4, 5, 6, 7, 8]⟩ [⟨1, 7⟩, ⟨2, 4⟩, ⟨2, .ofNat maxWord⟩] =
        .error ⟨2, maxWord, 4⟩ :=
  ⟨nesting _ (by decide) _, rfl, rfl⟩

end CodeSpans.Machine
