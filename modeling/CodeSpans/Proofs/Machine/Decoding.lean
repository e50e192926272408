import CodeSpans.Proofs.Machine.Fault
import CodeSpans.Proofs.X86.Window

/-!
# Decoding on words

A `Cursor` stands in the code itself, at a place that is a word, where the readers of the library
stand in a window of numbers. A reader over cursors follows a reader over windows (`Follows`) when it
has the same answers, its demand for bytes being checked against the length limit and the end of the
code, and faults nowhere. The primitives follow, a table being indexed by the byte, and sequencing
keeps it. The stages are the same for both readers, so that every stage follows, and `decode` has the
answers of `X86.decode` at every offset within some code (`decode_eq`).
-/

namespace CodeSpans.Machine

open X86 TakesBytes

/-- Where a reader stands in some code. -/
structure Cursor where
  code : View
  /-- Where the instruction starts. -/
  start : UInt64
  /-- Where the next byte is. -/
  pos : UInt64
deriving Repr, Inhabited

/-- A computation that moves a cursor. -/
abbrev CursorReader := StateT Cursor (Run Rejection)

/-- A read that leaves the code is an instruction that does. -/
instance : MonadLift (Run Overrun) (Run Rejection) where
  monadLift := ExceptT.adapt .truncated

/-- Checks that some more bytes are within the greatest length and within the code. -/
def Cursor.check (c : Cursor) (count : UInt64) : Run Rejection Unit := do
  let behind ← add c.pos count
  let needed ← sub behind c.start
  if maxLength < needed.val.toNat then
    throw .tooLong
  let size ← length c.code
  if size.val < (← add c.pos count).val then
    throw (.truncated ⟨c.start.toNat, needed.val.toNat, size.val.toNat⟩)

def Cursor.next (c : Cursor) : Run Rejection UInt8 := do
  c.check 1
  byte c.code c.pos

namespace CursorReader

/-- What a table says of a byte. It stays folded, since a table has an item for every byte. -/
@[irreducible]
def fromTable {α : Type} (table : UInt8 → α) (b : UInt8) : CursorReader α := fun c => do
  return (← index (byteTable table) b.toNat, c)

instance : TakesBytes CursorReader where
  refuse reason := throw reason
  peek c := do
    return (← c.next, c)
  take c := do
    let b ← c.next
    let pos ← add c.pos 1
    return (b, { c with pos })
  skip count c := do
    let count ← toWord count
    c.check count
    let pos ← add c.pos count
    return ((), { c with pos })
  consumed c := do
    let taken ← sub c.pos c.start
    let taken ← toByte taken
    return (taken.val, c)
  lookup := fromTable

end CursorReader

/-- The instruction at an offset. A slice for the branch target marker that leaves the code says
only that there is no marker. -/
def decode (code : View) (start : UInt64) : Run Rejection Span := do
  let front : Except Overrun View ← attempt (slice code start (.ofNat branchMarker.length))
  if front.toOption.any (·.toList = branchMarker) then
    return { branchMarkerInstruction with start := start.toNat }
  else
    let (instruction, _) ← readStages CursorReader ⟨code, start, start⟩
    return { instruction with start := start.toNat }

/-! ## Following a reader -/

section

variable (code : View) (start : UInt64) {α β : Type}

/-- The cursor of a state in the window at the start. -/
def place (s : Ahead) : Cursor :=
  ⟨code, start, .ofNat (start.toNat + s.taken)⟩

/-- The state is one of the window at the start. -/
def InWindow (s : Ahead) : Prop :=
  ∃ word, (⟨0, windowAt code start.toNat⟩ : Ahead).Takes word s

/-- A run has the answer of a reader, or ends as it does. -/
def Meets (run : Run Rejection (α × Cursor)) : Except Halt (α × Ahead) → Prop
  | .ok (a, s) => InWindow code start s ∧ run = .of (.ok (a, place code start s))
  | .error halt => run = .of (.error (halt.rejection code start.toNat))

/-- From every state of the window, a reader over cursors does what a reader does. -/
def Follows (m : CursorReader α) (r : Reader α) : Prop :=
  ∀ s, InWindow code start s → Meets code start (m (place code start s)) (r s)

end

section

variable {code : View} {start : UInt64} {α β : Type}

theorem InWindow.front : InWindow code start ⟨0, windowAt code start.toNat⟩ :=
  ⟨[], Ahead.takes_nil_iff.2 rfl⟩

theorem InWindow.behind {s s' : Ahead} (h : InWindow code start s) {word : List UInt8}
    (takes : s.Takes word s') : InWindow code start s' := by
  obtain ⟨before, reached⟩ := h
  exact ⟨before ++ word, reached.trans takes⟩

theorem InWindow.total {s : Ahead} (h : InWindow code start s) :
    s.taken + s.rest.length = min maxLength (code.size - start.toNat) := by
  obtain ⟨word, reached⟩ := h
  rw [reached.total, Nat.zero_add, length_windowAt]

/-- The next byte of a state is the byte of the code at its cursor. -/
theorem InWindow.getElem? {s : Ahead} (h : InWindow code start s) {b : UInt8} {rest : List UInt8}
    (next : s.rest = b :: rest) : code.toList[start.toNat + s.taken]? = some b := by
  obtain ⟨word, window, taken⟩ := h
  rw [Nat.zero_add] at taken
  have inWindow : (windowAt code start.toNat)[s.taken]? = some b := by
    change (windowAt code start.toNat) = _ at window
    rw [window, next, taken, List.getElem?_append_right (Nat.le_refl _), Nat.sub_self]
    rfl
  rw [windowAt_eq, List.getElem?_take, List.getElem?_drop] at inWindow
  split at inWindow
  · exact inWindow
  · cases inWindow

theorem follows_pure (a : α) : Follows code start (pure a) (pure a) := by
  intro s inside
  exact ⟨inside, rfl⟩

theorem follows_refuse (reason : Rejection) :
    Follows code start (refuse reason : CursorReader α) (refuse reason) := by
  intro s inside
  rfl

theorem lookup_eq (table : UInt8 → α) (b : UInt8) (c : Cursor) :
    (lookup table b : CursorReader α) c = .of (.ok (table b, c)) := by
  show CursorReader.fromTable table b c = _
  unfold CursorReader.fromTable
  rw [index_byteTable]
  rfl

theorem bind_apply (m : CursorReader α) (f : α → CursorReader β) (c : Cursor) :
    (m >>= f) c = m c >>= fun result => f result.1 result.2 := rfl

theorem Follows.bind {m : CursorReader α} {r : Reader α} {f : α → CursorReader β}
    {g : α → Reader β} (first : Follows code start m r)
    (rest : ∀ a, Follows code start (f a) (g a)) : Follows code start (m >>= f) (r >>= g) := by
  intro s inside
  have met := first s inside
  rw [bind_apply]
  change Meets code start _ (r s >>= fun result => g result.1 result.2)
  cases answer : r s with
  | error halt =>
    rw [answer] at met
    rw [show m (place code start s) = _ from met]
    rfl
  | ok result =>
    rw [answer] at met
    obtain ⟨inside', ran⟩ := met
    rw [ran]
    exact rest result.1 result.2 inside'

theorem Follows.ite {c : Prop} [Decidable c] {m m' : CursorReader α} {r r' : Reader α}
    (holds : Follows code start m r) (fails : Follows code start m' r') :
    Follows code start (if c then m else m') (if c then r else r') := by
  by_cases h : c
  · rw [if_pos h, if_pos h]
    exact holds
  · rw [if_neg h, if_neg h]
    exact fails

/-- Both find what a table says of a byte. -/
theorem Follows.lookup_bind {table : UInt8 → α} {b : UInt8} {f : α → CursorReader β}
    {g : α → Reader β} (rest : Follows code start (f (table b)) (g (table b))) :
    Follows code start (lookup table b >>= f) (lookup table b >>= g) := by
  intro s inside
  rw [bind_apply, lookup_eq, Run.of_ok_bind]
  exact rest s inside

end

/-! ## The primitives -/

section

variable {code : View} {start : UInt64} {α β : Type} (within : start.toNat < code.size)
  (short : code.size < 2 ^ 63)

include within short

theorem place_toNat {s : Ahead} (inside : InWindow code start s) :
    (place code start s).pos.toNat = start.toNat + s.taken := by
  have words : 2 ^ 63 + maxLength < UInt64.size := by decide
  have total := inside.total
  exact UInt64.toNat_ofNat_of_lt (by omega)

/-- Some more bytes of an instruction, as a cursor checks them and as a state has them. -/
theorem check_eq {s : Ahead} (inside : InWindow code start s) {count : UInt64}
    (small : count.toNat < UInt8.size) :
    (place code start s).check count =
      .of (if count.toNat ≤ s.rest.length then .ok ()
        else .error ((Halt.wants (s.taken + count.toNat)).rejection code start.toNat)) := by
  have words : 2 ^ 63 + maxLength + UInt8.size < UInt64.size := by decide
  have total := inside.total
  have pos_eq := place_toNat within short inside
  obtain ⟨⟨behind, behind_eq⟩, added⟩ :=
    exists_add (ε := Rejection) (a := (place code start s).pos) (b := count) (by omega)
  obtain ⟨⟨needed, needed_eq⟩, subtracted⟩ :=
    exists_sub (ε := Rejection) (a := behind) (b := start) (by omega)
  obtain ⟨⟨size, size_eq⟩, measured⟩ := length_eq (ε := Rejection) (v := code) (by omega)
  have needed_toNat : needed.toNat = s.taken + count.toNat := by omega
  have beyond_iff : size < behind ↔ code.size < start.toNat + (s.taken + count.toNat) := by
    rw [UInt64.lt_iff_toNat_lt]
    omega
  unfold Cursor.check Halt.rejection
  rw [added, Run.of_ok_bind, show (place code start s).start = start from rfl, subtracted,
    Run.of_ok_bind, show (place code start s).code = code from rfl, measured]
  simp only [Run.of_ok_bind, needed_toNat]
  by_cases long : maxLength < s.taken + count.toNat
  · have lacks : ¬ count.toNat ≤ s.rest.length := by omega
    simp only [if_pos long, if_neg lacks]
    rfl
  · by_cases beyond : size < behind
    · have lacks : ¬ count.toNat ≤ s.rest.length := by
        have := beyond_iff.1 beyond
        omega
      simp only [if_neg long, if_pos beyond, if_neg lacks, size_eq]
      rfl
    · have fits : count.toNat ≤ s.rest.length := by
        have := mt beyond_iff.2 beyond
        omega
      simp only [if_neg long, if_neg beyond, if_pos fits]
      rfl

/-- Behind some more bytes stands the cursor of the state behind them. -/
theorem exists_behind {s : Ahead} (inside : InWindow code start s) {count : UInt64}
    (fits : count.toNat ≤ s.rest.length) (rest : List UInt8) :
    ∃ pos, (add (place code start s).pos count : Run Rejection _) = .of (.ok pos) ∧
      { place code start s with pos := pos.val } =
        place code start ⟨s.taken + count.toNat, rest⟩ := by
  have words : 2 ^ 63 + maxLength < UInt64.size := by decide
  have total := inside.total
  have pos_eq := place_toNat within short inside
  obtain ⟨⟨pos, added_eq⟩, added⟩ :=
    exists_add (ε := Rejection) (a := (place code start s).pos) (b := count) (by omega)
  refine ⟨⟨pos, added_eq⟩, added, ?_⟩
  have same : pos = .ofNat (start.toNat + (s.taken + count.toNat)) := by
    refine UInt64.toNat_inj.1 (Eq.trans ?_ (UInt64.toNat_ofNat_of_lt (by omega)).symm)
    omega
  exact congrArg (Cursor.mk code start) same

theorem next_eq_ok {s : Ahead} (inside : InWindow code start s) {b : UInt8} {rest : List UInt8}
    (next : s.rest = b :: rest) : (place code start s).next = .of (.ok b) := by
  have one : (1 : UInt64).toNat ≤ s.rest.length := by
    rw [next, List.length_cons]
    exact Nat.le_add_left 1 _
  have words : 2 ^ 63 < UInt64.size := by decide
  unfold Cursor.next
  rw [check_eq within short inside (by decide), if_pos one, Run.of_ok_bind,
    show (place code start s).code = code from rfl, byte_eq (by omega),
    place_toNat within short inside, View.byte_of_getElem? (inside.getElem? next)]
  rfl

/-- Without a byte left, the next one is asked for. -/
theorem next_eq_error {s : Ahead} (inside : InWindow code start s) (none : s.rest = []) :
    (place code start s).next =
      .of (.error ((Halt.wants (s.taken + 1)).rejection code start.toNat)) := by
  unfold Cursor.next
  rw [check_eq within short inside (by decide), if_neg]
  · rfl
  · rw [none]
    decide

theorem follows_peek : Follows code start peek peek := by
  intro s inside
  simp only [peek]
  cases next : s.rest with
  | nil =>
    rw [next_eq_error within short inside next]
    rfl
  | cons b rest =>
    rw [next_eq_ok within short inside next]
    exact ⟨inside, rfl⟩

theorem follows_take : Follows code start take take := by
  intro s inside
  simp only [take]
  cases next : s.rest with
  | nil =>
    rw [next_eq_error within short inside next]
    rfl
  | cons b rest =>
    have one : (1 : UInt64).toNat ≤ s.rest.length := by
      rw [next, List.length_cons]
      exact Nat.le_add_left 1 _
    obtain ⟨pos, added, same⟩ := exists_behind within short inside one rest
    rw [next_eq_ok within short inside next, Run.of_ok_bind, added, Run.of_ok_bind, same]
    have takes : s.Takes [b] ⟨s.taken + 1, rest⟩ := ⟨next, rfl⟩
    exact ⟨inside.behind takes, rfl⟩

theorem follows_skip {count : Nat} (small : count < UInt8.size) :
    Follows code start (skip count) (skip count) := by
  intro s inside
  have words : UInt8.size < UInt64.size := by decide
  obtain ⟨⟨n, rfl⟩, counted⟩ := exists_toWord (ε := Rejection) (n := count) (by omega)
  simp only [skip]
  rw [counted, Run.of_ok_bind, check_eq within short inside small]
  by_cases fits : n.toNat ≤ s.rest.length
  · obtain ⟨pos, added, same⟩ := exists_behind within short inside fits (s.rest.drop n.toNat)
    rw [if_pos fits, if_pos fits, Run.of_ok_bind, added, Run.of_ok_bind, same]
    have takes : s.Takes (s.rest.take n.toNat) ⟨s.taken + n.toNat, s.rest.drop n.toNat⟩ := by
      refine ⟨(List.take_append_drop _ _).symm, ?_⟩
      rw [List.length_take_of_le fits]
    exact ⟨inside.behind takes, rfl⟩
  · rw [if_neg fits, if_neg fits]
    rfl

/-- So few bytes are taken that their number is a byte. -/
theorem follows_consumed : Follows code start consumed consumed := by
  intro s inside
  have total := inside.total
  have pos_eq := place_toNat within short inside
  have bytes : maxLength < UInt8.size := by decide
  obtain ⟨⟨taken, taken_eq⟩, subtracted⟩ :=
    exists_sub (ε := Rejection) (a := (place code start s).pos) (b := start) (by omega)
  obtain ⟨⟨b, b_eq⟩, narrowed⟩ := exists_toByte (ε := Rejection) (a := taken) (by omega)
  simp only [consumed]
  rw [show (place code start s).start = start from rfl, subtracted, Run.of_ok_bind, narrowed]
  have same : b = s.taken.toUInt8 := by
    refine UInt8.toNat_inj.1 (Eq.trans ?_ (UInt8.toNat_ofNat_of_lt (by omega)).symm)
    omega
  subst same
  exact ⟨inside, rfl⟩

/-! ## Every stage follows -/

omit within short in
theorem displacementWidth_lt (mode base : UInt8) : displacementWidth mode base < UInt8.size := by
  unfold displacementWidth
  split_ifs <;> decide

omit within short in
theorem width_lt (i : Immediate) (s : Sizing) : i.width s < UInt8.size := by
  have bytes : UInt8.size = 256 := rfl
  have operand : s.operandWidth ≤ 4 := by
    unfold Sizing.operandWidth
    split
    · decide
    · decide
  cases i with
  | wideOperand | address | testByte | testOperand =>
    simp only [Immediate.width]
    split <;> omega
  | _ =>
    simp only [Immediate.width]
    omega

theorem follows_readPrefixes (room : Nat) (seen : Prefixes) :
    Follows code start (readPrefixes CursorReader room seen) (readPrefixes Reader room seen) := by
  induction room generalizing seen with
  | zero =>
    unfold readPrefixes
    refine (follows_peek within short).bind fun b => ?_
    refine Follows.lookup_bind ?_
    cases LegacyPrefix.ofByte? b with
    | none => exact follows_pure _
    | some p => exact follows_refuse _
  | succ room ih =>
    unfold readPrefixes
    refine (follows_peek within short).bind fun b => ?_
    refine Follows.lookup_bind ?_
    cases LegacyPrefix.ofByte? b with
    | none => exact follows_pure _
    | some p => exact (follows_skip within short (by decide)).bind fun _ => ih _

theorem follows_readRex : Follows code start (readRex CursorReader) (readRex Reader) := by
  unfold readRex
  refine (follows_peek within short).bind fun b => ?_
  refine Follows.ite ?_ (follows_pure _)
  refine (follows_skip within short (by decide)).bind fun _ => ?_
  refine (follows_peek within short).bind fun following => ?_
  refine Follows.lookup_bind ?_
  exact Follows.ite (follows_refuse _) (follows_pure _)

theorem follows_skipAddress (m : ModRM) :
    Follows code start (skipAddress CursorReader m) (skipAddress Reader m) := by
  unfold skipAddress
  refine Follows.ite (follows_pure _) (Follows.ite ?_ ?_)
  · refine (follows_take within short).bind fun sib => ?_
    exact follows_skip within short (displacementWidth_lt _ _)
  · exact follows_skip within short (displacementWidth_lt _ _)

theorem follows_readModRM (use : ModRMUse) :
    Follows code start (readModRM CursorReader use) (readModRM Reader use) := by
  cases use with
  | absent => exact follows_pure _
  | registers => exact (follows_take within short).bind fun _ => follows_pure _
  | addressing =>
    refine (follows_take within short).bind fun b => ?_
    exact (follows_skipAddress within short _).bind fun _ => follows_pure _

theorem follows_readTail (layout : Layout) (sizing : Option ModRM → Sizing) :
    Follows code start (readTail CursorReader layout sizing) (readTail Reader layout sizing) := by
  unfold readTail
  refine (follows_readModRM within short _).bind fun m => ?_
  exact (follows_skip within short (width_lt _ _)).bind fun _ => follows_consumed within short

theorem follows_readEscape : Follows code start (readEscape CursorReader) (readEscape Reader) := by
  have one : Follows code start (skip 1) (skip 1) := follows_skip within short (by decide)
  unfold readEscape
  refine (follows_peek within short).bind fun b => ?_
  refine Follows.ite (one.bind fun _ => ?_) (follows_pure _)
  refine (follows_peek within short).bind fun second => ?_
  refine Follows.ite (one.bind fun _ => follows_pure _) ?_
  exact Follows.ite (one.bind fun _ => follows_pure _) (follows_pure _)

theorem follows_readLegacy (seen : Prefixes) (rex : Option Rex) :
    Follows code start (readLegacy CursorReader seen rex) (readLegacy Reader seen rex) := by
  unfold readLegacy
  refine (follows_readEscape within short).bind fun map => ?_
  refine (follows_take within short).bind fun opcode => ?_
  refine Follows.lookup_bind ?_
  cases map.layout? opcode with
  | none => exact follows_refuse _
  | some layout =>
    exact (follows_readTail within short _ _).bind fun _ => follows_pure _

theorem follows_readSelect (escape : VectorEscape) :
    Follows code start (escape.readSelect CursorReader) (escape.readSelect Reader) := by
  cases escape with
  | vex2 => exact (follows_skip within short (by decide)).bind fun _ => follows_pure _
  | vex3 | evex =>
    refine (follows_take within short).bind fun payload => ?_
    exact (follows_skip within short (by decide)).bind fun _ => follows_pure _

theorem follows_readVector (seen : Prefixes) (escape : VectorEscape) :
    Follows code start (readVector CursorReader seen escape) (readVector Reader seen escape) := by
  unfold readVector
  refine (follows_skip within short (by decide)).bind fun _ => ?_
  refine (follows_readSelect within short escape).bind fun select => ?_
  cases VectorEscape.map? select with
  | none => exact follows_refuse _
  | some map =>
    refine (follows_take within short).bind fun opcode => ?_
    refine Follows.lookup_bind ?_
    cases map.vectorLayout? opcode with
    | none => exact follows_refuse _
    | some layout =>
      exact (follows_readTail within short _ _).bind fun _ => follows_pure _

theorem follows_readBehind (seen : Prefixes) :
    Follows code start (readBehind CursorReader seen) (readBehind Reader seen) := by
  unfold readBehind
  refine (follows_readRex within short).bind fun rex => ?_
  refine (follows_peek within short).bind fun escape => ?_
  cases VectorEscape.ofByte? escape with
  | none => exact follows_readLegacy within short _ _
  | some vector =>
    exact Follows.ite (follows_refuse _) (follows_readVector within short _ _)

theorem follows_readStages :
    Follows code start (readStages CursorReader) (readStages Reader) :=
  (follows_readPrefixes within short _ _).bind fun _ => follows_readBehind within short _

end

/-! ## Instructions -/

/-- The marker is at the front of the window just where it can be sliced out of the code. -/
theorem marker_iff (code : View) (start : Nat) :
    (code.slice start branchMarker.length).toOption.any (·.toList = branchMarker) ↔
      (windowAt code start).take branchMarker.length = branchMarker := by
  have few : min branchMarker.length maxLength = branchMarker.length := rfl
  rw [windowAt_eq, List.take_take, few]
  by_cases fits : start + branchMarker.length ≤ code.size
  · obtain ⟨w, sliced⟩ : ∃ w, code.slice start branchMarker.length = .ok w :=
      ⟨_, View.slice_eq_ok fits⟩
    rw [sliced, ← (View.slice_eq_ok_iff.1 sliced).2]
    simp [Except.toOption]
  · rw [View.slice_eq_error (Nat.not_le.1 fits)]
    have four : branchMarker.length = 4 := rfl
    refine ⟨nofun, fun marker => absurd (congrArg List.length marker) ?_⟩
    rw [List.length_take, List.length_drop, View.length_toList]
    omega

/-- On words an instruction is decoded as on numbers. -/
theorem decode_eq {code : View} {start : UInt64} (within : start.toNat < code.size)
    (short : code.size < 2 ^ 63) : decode code start = .of (X86.decode code start.toNat) := by
  have words : 2 ^ 63 < UInt64.size := by decide
  have marker_length : (UInt64.ofNat branchMarker.length).toNat = branchMarker.length := rfl
  unfold decode X86.decode Instruction.ofWindow
  rw [slice_eq (by omega), attempt_of, Run.of_ok_bind, marker_length]
  by_cases marker : (windowAt code start.toNat).take branchMarker.length = branchMarker
  · rw [if_pos ((marker_iff code start.toNat).2 marker), if_pos marker]
    rfl
  · rw [if_neg (mt (marker_iff code start.toNat).1 marker), if_neg marker]
    have first : place code start ⟨0, windowAt code start.toNat⟩ = ⟨code, start, start⟩ := by
      unfold place
      rw [Nat.add_zero, UInt64.ofNat_toNat]
    have met := follows_readStages within short _ InWindow.front
    rw [first] at met
    unfold Reader.onWindow
    cases answer : readStages Reader ⟨0, windowAt code start.toNat⟩ with
    | error halt =>
      rw [answer] at met
      rw [show readStages CursorReader ⟨code, start, start⟩ = _ from met]
      rfl
    | ok result =>
      rw [answer] at met
      rw [met.2]
      rfl

end CodeSpans.Machine
