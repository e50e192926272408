import CodeSpans.Proofs.Bytes.Words

/-!
# Views of views

A `Cut` asks a view for a view of some of its bytes. Cuts of cuts are cuts: what is cut from a view
that was itself cut is cut from the first view, at the sum of the offsets (`View.slice_of_slice`).
So a chain of cuts, each of the view that the one before leads to, shows of the first view what one
cut does (`View.nest_eq_ok_iff`), and no read of it comes to a byte outside (`View.slice_sees`). A
chain stops at the first cut without room (`View.nest_eq_error_iff`).

`View.after` goes on with the view at hand where a cut has no room. It comes to the views of chains
and to no others (`View.exists_nest_after`).
-/

namespace CodeSpans

/-- What a view is asked for: so many bytes, from an offset on. -/
structure Cut where
  offset : UInt64
  length : UInt64
deriving DecidableEq, Repr, Inhabited

namespace Cut

/-- A view has room for a cut if the bytes asked for are all there. -/
def Fits (cut : Cut) (size : Nat) : Prop := cut.offset.toNat + cut.length.toNat ≤ size

/-- What is said of a cut for which a view has no room. -/
def overrun (cut : Cut) (size : Nat) : Overrun := ⟨cut.offset.toNat, cut.length.toNat, size⟩

/-- Each cut has room in the one before, and the first in `size` bytes. -/
def Nested : (size : Nat) → List Cut → Prop
  | _, [] => True
  | size, cut :: cuts => cut.Fits size ∧ Nested cut.length.toNat cuts

/-- Where the last of the cuts starts, counted from the start of the first view: the sum of the
offsets. -/
def depth (cuts : List Cut) : Nat := cuts.foldr (fun cut sum => cut.offset.toNat + sum) 0

/-- The length of the last cut, or without any that of the first view. -/
def innermost (size : Nat) (cuts : List Cut) : Nat :=
  (cuts.getLast?.map (·.length.toNat)).getD size

@[simp] theorem depth_nil : depth [] = 0 := rfl

@[simp] theorem depth_cons (cut : Cut) (cuts : List Cut) :
    depth (cut :: cuts) = cut.offset.toNat + depth cuts := rfl

@[simp] theorem innermost_nil (size : Nat) : innermost size [] = size := rfl

@[simp] theorem innermost_cons (size : Nat) (cut : Cut) (cuts : List Cut) :
    innermost size (cut :: cuts) = innermost cut.length.toNat cuts := by
  cases cuts with
  | nil => rfl
  | cons next cuts => simp [innermost, List.getLast?_cons]

/-- The last of nested cuts lies in the first view. -/
theorem Nested.depth_add_le {size : Nat} {cuts : List Cut} (h : Nested size cuts) :
    depth cuts + innermost size cuts ≤ size := by
  induction cuts generalizing size with
  | nil => simp
  | cons cut cuts ih =>
    obtain ⟨room, inner⟩ := h
    have deeper := ih inner
    unfold Fits at room
    simp only [depth_cons, innermost_cons]
    omega

end Cut

/-- A read of a view, of which another read has the same answer if there is room for it, and which
else fails with what was asked. -/
structure Relays {α : Type} (room : Prop) (asked : Overrun) (here there : Except Overrun α) :
    Prop where
  answered : room → ∃ a, here = .ok a ∧ there = .ok a
  refused : ¬room → here = .error asked

theorem Relays.map {α β : Type} {room : Prop} {asked : Overrun} {here there : Except Overrun α}
    (r : Relays room asked here there) (f : α → β) :
    Relays room asked (here.map f) (there.map f) where
  answered inside := by
    obtain ⟨a, rfl, rfl⟩ := r.answered inside
    exact ⟨f a, rfl, rfl⟩
  refused outside := by
    rw [r.refused outside]
    rfl

namespace View

/-- The view of a cut. -/
def cut (v : View) (c : Cut) : Except Overrun View := v.slice c.offset.toNat c.length.toNat

/-- The view that a chain of cuts leads to. -/
def nest (v : View) : List Cut → Except Overrun View
  | [] => .ok v
  | c :: cuts => do (← v.cut c).nest cuts

/-- The view at hand after some cuts, of which each that has no room changes nothing. -/
def after (v : View) : List Cut → View
  | [] => v
  | c :: cuts =>
    match v.cut c with
    | .ok w => w.after cuts
    | .error _ => v.after cuts

/-- A view shows `size` bytes of another, from `base` on: it has these bytes, all that is read of it
is read of the other, and where there is no room left it says so with its own size. -/
structure Sees (v : View) (base size : Nat) (w : View) : Prop where
  within : base + size ≤ v.size
  size_eq : w.size = size
  toList_eq : w.toList = (v.toList.drop base).take size
  slice (offset length : Nat) : Relays (offset + length ≤ size) ⟨offset, length, size⟩
    (w.slice offset length) (v.slice (base + offset) length)
  tail (offset : Nat) : Relays (offset ≤ size) ⟨offset, 0, size⟩
    (w.tail offset) (v.slice (base + offset) (size - offset))
  byte (offset : Nat) : Relays (offset + 1 ≤ size) ⟨offset, 1, size⟩
    (w.byte offset) (v.byte (base + offset))
  word16 (offset : Nat) : Relays (offset + 2 ≤ size) ⟨offset, 2, size⟩
    (w.word16 offset) (v.word16 (base + offset))
  word32 (offset : Nat) : Relays (offset + 4 ≤ size) ⟨offset, 4, size⟩
    (w.word32 offset) (v.word32 (base + offset))
  word64 (offset : Nat) : Relays (offset + 8 ≤ size) ⟨offset, 8, size⟩
    (w.word64 offset) (v.word64 (base + offset))

/-! ## One cut -/

section

variable {v w : View} {base size offset length : Nat}

theorem slice_whole (v : View) : v.slice 0 v.size = .ok v := by
  refine slice_eq_ok_iff.2 ⟨by omega, ?_⟩
  rw [List.drop_zero, ← length_toList, List.take_length]

/-- A cut of a cut is a cut. -/
theorem slice_of_slice (h : v.slice base size = .ok w) (room : offset + length ≤ size) :
    w.slice offset length = v.slice (base + offset) length := by
  obtain ⟨within, bytes⟩ := slice_eq_ok_iff.1 h
  have there : v.slice (base + offset) length =
      .ok ⟨v.bytes.extract (base + offset) (base + offset + length)⟩ := slice_eq_ok (by omega)
  rw [there, slice_eq_ok_iff, size_of_slice h, (slice_eq_ok_iff.1 there).2, bytes]
  refine ⟨room, ?_⟩
  rw [List.drop_take, List.drop_drop, List.take_take, Nat.min_eq_left (by omega)]

theorem slice_relays (h : v.slice base size = .ok w) (offset length : Nat) :
    Relays (offset + length ≤ size) ⟨offset, length, size⟩ (w.slice offset length)
      (v.slice (base + offset) length) where
  answered room := by
    have here : offset + length ≤ w.size := by rwa [size_of_slice h]
    rw [← slice_of_slice h room]
    exact ⟨_, slice_eq_ok here, slice_eq_ok here⟩
  refused outside := by
    rw [slice_eq_error (by rw [size_of_slice h]; omega), size_of_slice h]

theorem word_relays (h : v.slice base size = .ok w) (width offset : Nat) :
    Relays (offset + width ≤ size) ⟨offset, width, size⟩ (w.word width offset)
      (v.word width (base + offset)) :=
  (slice_relays h offset width).map _

/-- The tail of a cut ends where the cut does. -/
theorem tail_relays (h : v.slice base size = .ok w) (offset : Nat) :
    Relays (offset ≤ size) ⟨offset, 0, size⟩ (w.tail offset)
      (v.slice (base + offset) (size - offset)) where
  answered room := by
    have all : offset + (size - offset) = w.size := by rw [size_of_slice h]; omega
    have rest : w.tail offset = w.slice offset (size - offset) := by
      rw [slice_eq_ok (Nat.le_of_eq all), all]
      exact if_pos (by omega)
    rw [rest]
    exact (slice_relays h offset (size - offset)).answered (by omega)
  refused outside := by
    unfold tail
    rw [size_of_slice h, if_neg outside]

theorem slice_sees (h : v.slice base size = .ok w) : Sees v base size w where
  within := (slice_eq_ok_iff.1 h).1
  size_eq := size_of_slice h
  toList_eq := (slice_eq_ok_iff.1 h).2
  slice := slice_relays h
  tail := tail_relays h
  byte offset := (word_relays h 1 offset).map _
  word16 offset := (word_relays h 2 offset).map _
  word32 offset := (word_relays h 4 offset).map _
  word64 offset := (word_relays h 8 offset).map _

end

/-! ## Chains of cuts -/

section

variable {v w : View} {c : Cut} {cuts : List Cut}

theorem cut_eq_error (full : ¬c.Fits v.size) : v.cut c = .error (c.overrun v.size) :=
  slice_eq_error (Nat.not_le.1 full)

/-- A view has room for a cut, or refuses it. -/
theorem cut_cases (v : View) (c : Cut) :
    (∃ w, v.cut c = .ok w ∧ c.Fits v.size ∧ w.size = c.length.toNat) ∨
      v.cut c = .error (c.overrun v.size) ∧ ¬c.Fits v.size := by
  by_cases room : c.Fits v.size
  · have cut : v.cut c = .ok ⟨v.bytes.extract c.offset.toNat (c.offset.toNat + c.length.toNat)⟩ :=
      slice_eq_ok room
    exact .inl ⟨_, cut, room, size_of_slice cut⟩
  · exact .inr ⟨cut_eq_error room, room⟩

theorem nest_cons_of_ok (h : v.cut c = .ok w) : v.nest (c :: cuts) = w.nest cuts := by
  rw [nest, h]
  rfl

theorem nest_cons_of_error {o : Overrun} (h : v.cut c = .error o) :
    v.nest (c :: cuts) = .error o := by
  rw [nest, h]
  rfl

/-- A chain of cuts leads somewhere just if each has room in the one before, and there it has come to
one cut of the first view. -/
theorem nest_eq_ok_iff :
    v.nest cuts = .ok w ↔
      Cut.Nested v.size cuts ∧
        v.slice (Cut.depth cuts) (Cut.innermost v.size cuts) = .ok w := by
  induction cuts generalizing v with
  | nil =>
    rw [nest, Cut.depth_nil, Cut.innermost_nil, slice_whole]
    exact (and_iff_right trivial).symm
  | cons c cuts ih =>
    obtain ⟨u, cut, room, size⟩ | ⟨refused, full⟩ := v.cut_cases c
    · rw [nest_cons_of_ok cut, ih, size, Cut.depth_cons, Cut.innermost_cons, Cut.Nested,
        and_iff_right room]
      refine and_congr_right fun inner => ?_
      rw [slice_of_slice cut inner.depth_add_le]
    · rw [nest_cons_of_error refused]
      exact ⟨nofun, fun h => absurd h.1.1 full⟩

theorem exists_nest_iff : (∃ w, v.nest cuts = .ok w) ↔ Cut.Nested v.size cuts := by
  constructor
  · rintro ⟨w, h⟩
    exact (nest_eq_ok_iff.1 h).1
  · intro nested
    exact ⟨_, nest_eq_ok_iff.2 ⟨nested, slice_eq_ok nested.depth_add_le⟩⟩

/-- A chain fails with the first cut for which the view at hand has no room. -/
theorem nest_eq_error_iff {o : Overrun} :
    v.nest cuts = .error o ↔
      ∃ before c behind w, cuts = before ++ c :: behind ∧ v.nest before = .ok w ∧
        ¬c.Fits w.size ∧ o = c.overrun w.size := by
  induction cuts generalizing v with
  | nil =>
    refine ⟨nofun, ?_⟩
    rintro ⟨before, c, behind, w, same, -⟩
    cases before <;> cases same
  | cons c cuts ih =>
    obtain ⟨u, cut, room, -⟩ | ⟨refused, none⟩ := v.cut_cases c
    · rw [nest_cons_of_ok cut, ih]
      constructor
      · rintro ⟨before, d, behind, w, rfl, led, full, same⟩
        exact ⟨c :: before, d, behind, w, rfl, (nest_cons_of_ok cut).trans led, full, same⟩
      · rintro ⟨before, d, behind, w, split, led, full, same⟩
        cases before with
        | nil =>
          cases split
          cases led
          exact absurd room full
        | cons _ before =>
          cases split
          exact ⟨before, d, behind, w, rfl, (nest_cons_of_ok cut).symm.trans led, full, same⟩
    · rw [nest_cons_of_error refused]
      constructor
      · rintro ⟨⟩
        exact ⟨[], c, cuts, v, rfl, rfl, none, rfl⟩
      · rintro ⟨before, d, behind, w, split, led, -, rfl⟩
        cases before with
        | nil =>
          cases split
          cases led
          rfl
        | cons _ before =>
          cases split
          rw [nest_cons_of_error refused] at led
          cases led

/-! ## Cuts without room -/

theorem after_cons_of_ok (h : v.cut c = .ok w) : v.after (c :: cuts) = w.after cuts := by
  rw [after, h]

theorem after_cons_of_not_fits (full : ¬c.Fits v.size) : v.after (c :: cuts) = v.after cuts := by
  rw [after, cut_eq_error full]

theorem after_of_nest (h : v.nest cuts = .ok w) : v.after cuts = w := by
  induction cuts generalizing v with
  | nil => exact Except.ok.inj h
  | cons c cuts ih =>
    obtain ⟨u, cut, -⟩ | ⟨refused, -⟩ := v.cut_cases c
    · rw [nest_cons_of_ok cut] at h
      rw [after_cons_of_ok cut, ih h]
    · rw [nest_cons_of_error refused] at h
      cases h

theorem after_append (v : View) (before behind : List Cut) :
    v.after (before ++ behind) = (v.after before).after behind := by
  induction before generalizing v with
  | nil => rfl
  | cons c before ih =>
    obtain ⟨u, cut, -⟩ | ⟨-, full⟩ := v.cut_cases c
    · rw [List.cons_append, after_cons_of_ok cut, after_cons_of_ok cut, ih]
    · rw [List.cons_append, after_cons_of_not_fits full, after_cons_of_not_fits full, ih]

/-- A cut without room might as well not have been asked for. -/
theorem after_of_not_fits {before behind : List Cut} (full : ¬c.Fits (v.after before).size) :
    v.after (before ++ c :: behind) = v.after (before ++ behind) := by
  rw [after_append, after_append, after_cons_of_not_fits full]

/-- The view at hand is the one that the cuts with room lead to. -/
theorem exists_nest_after (v : View) (cuts : List Cut) :
    ∃ kept, kept.Sublist cuts ∧ v.nest kept = .ok (v.after cuts) := by
  induction cuts generalizing v with
  | nil => exact ⟨[], .slnil, rfl⟩
  | cons c cuts ih =>
    obtain ⟨u, cut, -⟩ | ⟨-, full⟩ := v.cut_cases c
    · obtain ⟨kept, some, led⟩ := ih u
      rw [after_cons_of_ok cut]
      exact ⟨c :: kept, some.cons_cons c, (nest_cons_of_ok cut).trans led⟩
    · obtain ⟨kept, some, led⟩ := ih v
      rw [after_cons_of_not_fits full]
      exact ⟨kept, some.cons c, led⟩

end

end View

end CodeSpans
