import CodeSpans.Proofs.Bytes.Words
import Mathlib.Order.CompletePartialOrder
import Mathlib.Order.Interval.Set.Disjoint

/-!
# Views that differ in some places

`EqualOutside changed v w`: the views have one length, and the same bytes but for the places
`changed`. A read of other places then has the same answer, or leaves both views with the same
overrun.
-/

namespace CodeSpans

/-- The places of `length` bytes from `offset` on. -/
def places (offset length : Nat) : Set Nat := Set.Ico offset (offset + length)

theorem places_subset {offset length offset' length' : Nat} (first : offset' ≤ offset)
    (last : offset + length ≤ offset' + length') : places offset length ⊆ places offset' length' :=
  Set.Ico_subset_Ico first last

theorem places_disjoint {offset length offset' length' : Nat}
    (apart : offset + length ≤ offset' ∨ offset' + length' ≤ offset) :
    Disjoint (places offset length) (places offset' length') := by
  apply Set.disjoint_left.2
  rintro i ⟨first, last⟩ ⟨first', last'⟩
  omega

namespace View

structure EqualOutside (changed : Set Nat) (v w : View) : Prop where
  size_eq : v.size = w.size
  byte_eq : ∀ i ∉ changed, v.toList[i]? = w.toList[i]?

variable {changed : Set Nat} {v w : View} {offset length : Nat}

theorem EqualOutside.trans {changed' : Set Nat} {u : View} (same : EqualOutside changed v w)
    (same' : EqualOutside changed' w u) : EqualOutside (changed ∪ changed') v u where
  size_eq := same.size_eq.trans same'.size_eq
  byte_eq i out := by
    obtain ⟨here, there⟩ := not_or.1 out
    rw [same.byte_eq i here, same'.byte_eq i there]

theorem EqualOutside.mono {changed' : Set Nat} (same : EqualOutside changed v w)
    (more : changed ⊆ changed') : EqualOutside changed' v w :=
  ⟨same.size_eq, fun i out => same.byte_eq i fun inside => out (more inside)⟩

theorem EqualOutside.cut_eq (same : EqualOutside changed v w)
    (apart : Disjoint changed (places offset length)) :
    (v.toList.drop offset).take length = (w.toList.drop offset).take length := by
  apply List.ext_getElem?
  intro i
  rw [List.getElem?_take, List.getElem?_take]
  by_cases within : i < length
  · rw [if_pos within, if_pos within, List.getElem?_drop, List.getElem?_drop]
    apply same.byte_eq
    intro inside
    exact Set.disjoint_left.1 apart inside ⟨by omega, by omega⟩
  · rw [if_neg within, if_neg within]

theorem EqualOutside.number_eq (same : EqualOutside changed v w)
    (apart : Disjoint changed (places offset length)) :
    v.number length offset = w.number length offset := by
  unfold number
  rw [same.cut_eq apart]

theorem EqualOutside.slice_eq (same : EqualOutside changed v w)
    (apart : Disjoint changed (places offset length)) :
    v.slice offset length = w.slice offset length := by
  rcases Nat.lt_or_ge v.size (offset + length) with beyond | within
  · have beyond' : w.size < offset + length := by rw [← same.size_eq]; exact beyond
    rw [slice_eq_error beyond, slice_eq_error beyond', same.size_eq]
  · have within' : offset + length ≤ w.size := by rw [← same.size_eq]; exact within
    have cut : v.slice offset length = .ok ⟨v.bytes.extract offset (offset + length)⟩ :=
      slice_eq_ok within
    have bytes := (slice_eq_ok_iff.1 cut).2
    rw [same.cut_eq apart] at bytes
    rw [cut]
    exact (slice_eq_ok_iff.2 ⟨within', bytes⟩).symm

theorem EqualOutside.word_eq (same : EqualOutside changed v w)
    (apart : Disjoint changed (places offset length)) :
    v.word length offset = w.word length offset := by
  unfold word
  rw [same.slice_eq apart]

/-- Views in which a place has the same number have the same bytes there. -/
theorem byte_eq_of_number_eq (size : v.size = w.size)
    (same : v.number length offset = w.number length offset) {i : Nat} (lt : i < length) :
    v.toList[offset + i]? = w.toList[offset + i]? := by
  have cut : (v.toList.drop offset).take length = (w.toList.drop offset).take length := by
    refine LittleEndian.value_injective ?_ same
    rw [List.length_take, List.length_take, List.length_drop, List.length_drop, length_toList,
      length_toList, size]
  have byte := congrArg (·[i]?) cut
  rwa [List.getElem?_take_of_lt lt, List.getElem?_take_of_lt lt, List.getElem?_drop,
    List.getElem?_drop] at byte

end View

end CodeSpans
