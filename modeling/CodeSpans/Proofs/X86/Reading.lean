import CodeSpans.X86.Instruction

/-!
# What a reader takes

`s.Takes word s'` says that the state `s'` stands behind the bytes `word` of the state `s`. Each
primitive reader is described by the bytes it takes (`take_eq_ok_iff`, `skip_eq_ok_iff`), and
`bind_eq_ok_iff` puts the descriptions together.

A reader is `Steady` when bytes behind the ones it asked for have no part in its answer: an answer
and a broken rule stay as they are when the window grows, and a demand for bytes stays as it is
while the window is shorter than the demand. The primitives are steady and sequencing keeps it, so
every stage of an instruction is. A reader is `Unbroken` when it refuses no bytes that are there.
-/

namespace CodeSpans.X86

namespace Ahead

/-- The state `s'` is behind the bytes `word` of the state `s`. -/
def Takes (s : Ahead) (word : List UInt8) (s' : Ahead) : Prop :=
  s.rest = word ++ s'.rest ∧ s'.taken = s.taken + word.length

/-- There is a next byte, and it satisfies `P`. -/
def Next (s : Ahead) (P : UInt8 → Prop) : Prop :=
  ∃ b rest, s.rest = b :: rest ∧ P b

/-- The state in a window with more bytes at its end. -/
def extend (s : Ahead) (more : List UInt8) : Ahead :=
  { s with rest := s.rest ++ more }

variable {s s' s'' : Ahead} {u v word : List UInt8} {b : UInt8} {P : UInt8 → Prop}

@[simp] theorem takes_nil_iff : s.Takes [] s' ↔ s' = s := by
  obtain ⟨taken, rest⟩ := s
  obtain ⟨taken', rest'⟩ := s'
  simp only [Takes, List.nil_append, List.length_nil, Nat.add_zero, Ahead.mk.injEq]
  constructor
  · rintro ⟨h, h'⟩; exact ⟨h', h.symm⟩
  · rintro ⟨h, h'⟩; exact ⟨h'.symm, h⟩

theorem takes_append_iff : s.Takes (u ++ v) s'' ↔ ∃ s', s.Takes u s' ∧ s'.Takes v s'' := by
  constructor
  · rintro ⟨h, h'⟩
    refine ⟨⟨s.taken + u.length, v ++ s''.rest⟩, ⟨?_, rfl⟩, rfl, ?_⟩
    · rw [h, List.append_assoc]
    · rw [h', List.length_append, Nat.add_assoc]
  · rintro ⟨s', ⟨h₁, h₂⟩, h₃, h₄⟩
    refine ⟨?_, ?_⟩
    · rw [h₁, h₃, List.append_assoc]
    · rw [h₄, h₂, List.length_append, Nat.add_assoc]

theorem takes_cons_iff :
    s.Takes (b :: word) s'' ↔ ∃ s', s.Takes [b] s' ∧ s'.Takes word s'' :=
  takes_append_iff (u := [b])

theorem Takes.trans (h : s.Takes u s') (h' : s'.Takes v s'') : s.Takes (u ++ v) s'' :=
  takes_append_iff.2 ⟨s', h, h'⟩

theorem Takes.extend (h : s.Takes word s') (more : List UInt8) :
    (s.extend more).Takes word (s'.extend more) := by
  refine ⟨?_, h.2⟩
  show s.rest ++ more = word ++ (s'.rest ++ more)
  rw [h.1, List.append_assoc]

/-- Taking bytes moves them from the rest to the count. -/
theorem Takes.total (h : s.Takes word s') :
    s'.taken + s'.rest.length = s.taken + s.rest.length := by
  rw [h.1, h.2, List.length_append, Nat.add_assoc]

theorem Next.exists (h : s.Next P) : ∃ b, s.Next (b = ·) ∧ P b := by
  obtain ⟨b, rest, hrest, hb⟩ := h
  exact ⟨b, ⟨b, rest, hrest, rfl⟩, hb⟩

theorem Next.mono {Q : UInt8 → Prop} (h : s.Next P) (hPQ : ∀ b, P b → Q b) : s.Next Q := by
  obtain ⟨b, rest, hrest, hb⟩ := h
  exact ⟨b, rest, hrest, hPQ b hb⟩

/-- The first byte taken is the next byte. -/
theorem Takes.next (h : s.Takes (b :: word) s') (hb : P b) : s.Next P :=
  ⟨b, word ++ s'.rest, h.1, hb⟩

theorem Takes.here (h : s.Takes (b :: word) s') : s.Next (b = ·) :=
  h.next rfl

theorem exists_takes_iff : (∃ s', s.Takes word s') ↔ word <+: s.rest := by
  constructor
  · intro h
    obtain ⟨s', takes, -⟩ := h
    exact ⟨s'.rest, takes.symm⟩
  · intro h
    obtain ⟨rest, same⟩ := h
    exact ⟨⟨s.taken + word.length, rest⟩, same.symm, rfl⟩

theorem Next.front (h : s.Next (b = ·)) : [b] <+: s.rest := by
  obtain ⟨b', rest, hrest, rfl⟩ := h
  exact ⟨rest, hrest.symm⟩

theorem Next.eq_of_head? {c : UInt8} (h : s.Next (b = ·))
    (front : word <+: s.rest) (first : c ∈ word.head?) : c = b := by
  obtain ⟨b', rest, hrest, rfl⟩ := h
  obtain ⟨more, rfl⟩ := List.head?_eq_some_iff.1 first
  rw [hrest] at front
  exact (List.cons_prefix_cons.1 front).1

theorem Takes.next_of_head? (h : s.Takes word s')
    (some : word ≠ []) (first : ∀ b ∈ word.head?, P b) : s.Next P := by
  obtain ⟨b, rest, rfl⟩ := List.exists_cons_of_ne_nil some
  exact h.next (first b rfl)

end Ahead

/-- The rejections that a rule of the encoding gives. The others come of counting bytes: at the
end of the code, at the greatest length, or in a sweep. -/
def Rejection.IsRule : Rejection → Prop
  | .unknownOpcode .. | .misplacedPrefix _ | .tooManyPrefixes | .unsupportedSelect .. => True
  | .truncated _ | .tooLong | .noProgress => False

namespace Reader

open TakesBytes Ahead

variable {α β : Type} {s s' s'' : Ahead}

/-! ## Answers -/

theorem bind_eq_ok_iff {r : Reader α} {f : α → Reader β} {b : β} :
    (r >>= f) s = .ok (b, s'') ↔ ∃ a s', r s = .ok (a, s') ∧ f a s' = .ok (b, s'') := by
  simp only [bind, StateT.bind, Except.bind]
  cases r s with
  | error halt => simp
  | ok answer =>
    obtain ⟨a, s'⟩ := answer
    constructor
    · intro h; exact ⟨a, s', rfl, h⟩
    · rintro ⟨_, _, same, h⟩; cases same; exact h

theorem bind_eq_error_iff {r : Reader α} {f : α → Reader β} {halt : Halt} :
    (r >>= f) s = .error halt ↔
      r s = .error halt ∨ ∃ a s', r s = .ok (a, s') ∧ f a s' = .error halt := by
  simp only [bind, StateT.bind, Except.bind]
  cases r s with
  | error halt => simp
  | ok answer =>
    obtain ⟨a, s'⟩ := answer
    constructor
    · intro h; exact .inr ⟨a, s', rfl, h⟩
    · rintro (h | ⟨_, _, same, h⟩)
      · cases h
      · cases same; exact h

@[simp] theorem pure_eq_ok_iff {a b : α} :
    (pure a : Reader α) s = .ok (b, s') ↔ b = a ∧ s' = s := by
  rw [show (pure a : Reader α) s = .ok (a, s) from rfl, Except.ok.injEq, Prod.mk.injEq]
  exact and_congr eq_comm eq_comm

/-- To report of an answer is no reason to end. -/
theorem bind_pure_eq_error_iff {r : Reader α} {report : α → β} {halt : Halt} :
    (r >>= fun a => pure (report a)) s = .error halt ↔ r s = .error halt := by
  rw [bind_eq_error_iff]
  exact or_iff_left (by rintro ⟨a, s', -, h⟩; cases h)

@[simp] theorem refuse_eq {reason : Rejection} :
    (refuse reason : Reader α) s = .error (.broken reason) := rfl

theorem peek_eq_ok_iff {b : UInt8} :
    (peek : Reader UInt8) s = .ok (b, s') ↔ s' = s ∧ s.Next (b = ·) := by
  simp only [peek, Next]
  split
  · next h => simp [h]
  · next b' rest h => simp [h, eq_comm, and_comm]

theorem take_eq_ok_iff {b : UInt8} :
    (take : Reader UInt8) s = .ok (b, s') ↔ s.Takes [b] s' := by
  obtain ⟨taken', rest'⟩ := s'
  simp only [take, Takes]
  split
  · next h => simp [h]
  · next b' rest h => simp [h, eq_comm, and_comm, and_assoc]

theorem skip_eq_ok_iff {count : Nat} {u : Unit} :
    (skip count : Reader Unit) s = .ok (u, s') ↔
      ∃ word, word.length = count ∧ s.Takes word s' := by
  obtain ⟨taken', rest'⟩ := s'
  simp only [skip, Takes]
  constructor
  · intro h
    split at h
    · next fits =>
      simp only [Except.ok.injEq, Prod.mk.injEq, Ahead.mk.injEq, true_and] at h
      obtain ⟨rfl, rfl⟩ := h
      have len : (s.rest.take count).length = count := List.length_take_of_le fits
      exact ⟨s.rest.take count, len, (List.take_append_drop count s.rest).symm, by rw [len]⟩
    · cases h
  · rintro ⟨word, rfl, h, h'⟩
    rw [if_pos (by rw [h, List.length_append]; omega), h, List.drop_left, h']

@[simp] theorem consumed_eq_ok_iff {n : UInt8} :
    (consumed : Reader UInt8) s = .ok (n, s') ↔ n = s.taken.toUInt8 ∧ s' = s := by
  simp [consumed, eq_comm]

/-- Where the next byte is known, skipping one byte takes that byte. -/
theorem skip_one_eq_ok_iff {b : UInt8} {u : Unit} (h : s.Next (b = ·)) :
    (skip 1 : Reader Unit) s = .ok (u, s') ↔ s.Takes [b] s' := by
  obtain ⟨b', rest, hrest, rfl⟩ := h
  rw [skip_eq_ok_iff]
  constructor
  · rintro ⟨word, len, takes⟩
    obtain ⟨c, rfl⟩ := List.length_eq_one_iff.1 len
    have same : b :: rest = c :: s'.rest := by rw [← hrest]; exact takes.1
    rw [(List.cons.inj same).1]
    exact takes
  · intro takes
    exact ⟨[b], rfl, takes⟩

theorem bind_of_ok {r : Reader α} {f : α → Reader β} {a : α} (h : r s = .ok (a, s')) :
    (r >>= f) s = f a s' := by
  simp only [bind, StateT.bind, Except.bind, h]

theorem peek_bind {f : UInt8 → Reader β} {b : UInt8} (next : s.Next (b = ·)) :
    (peek >>= f) s = f b s :=
  bind_of_ok (peek_eq_ok_iff.2 ⟨rfl, next⟩)

theorem take_bind {f : UInt8 → Reader β} {b : UInt8} (takes : s.Takes [b] s') :
    (take >>= f) s = f b s' :=
  bind_of_ok (take_eq_ok_iff.2 takes)

theorem skip_bind {f : Unit → Reader β} {count : Nat} {word : List UInt8}
    (len : word.length = count) (takes : s.Takes word s') : (skip count >>= f) s = f () s' :=
  bind_of_ok (skip_eq_ok_iff.2 ⟨word, len, takes⟩)

theorem skip_one_bind {f : Unit → Reader β} {b : UInt8} (takes : s.Takes [b] s') :
    (skip 1 >>= f) s = f () s' :=
  skip_bind rfl takes

/-- What a table says of a byte is no step of a reader. -/
theorem lookup_bind (table : UInt8 → α) (b : UInt8) (f : α → Reader β) :
    lookup table b >>= f = f (table b) := rfl

theorem map_apply (f : α → β) (r : Reader α) (s : Ahead) :
    (f <$> r) s = (r s).map fun answer => (f answer.1, answer.2) := by
  rw [← bind_pure_comp]
  show (r s).bind _ = _
  cases r s <;> rfl

/-! ## Steadiness -/

/-- Bytes behind the ones it asked for have no part in what a reader answers. -/
structure Steady (r : Reader α) : Prop where
  ok : ∀ {s a s'}, r s = .ok (a, s') →
    (∃ word, s.Takes word s') ∧ ∀ more, r (s.extend more) = .ok (a, s'.extend more)
  broken : ∀ {s reason}, r s = .error (.broken reason) →
    reason.IsRule ∧ ∀ more, r (s.extend more) = .error (.broken reason)
  wants : ∀ {s length}, r s = .error (.wants length) →
    s.taken + s.rest.length < length ∧
      ∀ more, s.taken + s.rest.length + more.length < length →
        r (s.extend more) = .error (.wants length)

theorem steady_pure (a : α) : Steady (pure a : Reader α) where
  ok h := by
    obtain ⟨rfl, rfl⟩ := pure_eq_ok_iff.1 h
    exact ⟨⟨[], takes_nil_iff.2 rfl⟩, fun _ => rfl⟩
  broken h := by cases h
  wants h := by cases h

theorem steady_refuse {reason : Rejection} (hr : reason.IsRule) :
    Steady (refuse reason : Reader α) where
  ok h := by cases h
  broken h := by cases h; exact ⟨hr, fun _ => rfl⟩
  wants h := by cases h

theorem steady_consumed : Steady (consumed : Reader UInt8) where
  ok h := by
    obtain ⟨rfl, rfl⟩ := consumed_eq_ok_iff.1 h
    exact ⟨⟨[], takes_nil_iff.2 rfl⟩, fun _ => rfl⟩
  broken h := by cases h
  wants h := by cases h

theorem steady_peek : Steady (peek : Reader UInt8) where
  ok h := by
    obtain ⟨rfl, b, rest, hrest, same⟩ := peek_eq_ok_iff.1 h
    refine ⟨⟨[], takes_nil_iff.2 rfl⟩, fun more => ?_⟩
    refine peek_eq_ok_iff.2 ⟨rfl, b, rest ++ more, ?_, same⟩
    rw [extend, hrest, List.cons_append]
  broken {s reason} h := by
    simp only [peek] at h
    split at h <;> cases h
  wants {s length} h := by
    simp only [peek] at h
    split at h
    · next empty =>
      cases h
      refine ⟨by simp [empty], fun more few => ?_⟩
      have none : more = [] := List.eq_nil_of_length_eq_zero (by omega)
      simp [peek, extend, empty, none]
    · cases h

theorem steady_skip (count : Nat) : Steady (skip count : Reader Unit) where
  ok h := by
    obtain ⟨word, len, takes⟩ := skip_eq_ok_iff.1 h
    exact ⟨⟨word, takes⟩, fun more => skip_eq_ok_iff.2 ⟨word, len, takes.extend more⟩⟩
  broken h := by
    simp only [skip] at h
    split at h <;> cases h
  wants {s length} h := by
    simp only [skip] at h
    split at h
    · cases h
    · next beyond =>
      cases h
      refine ⟨by omega, fun more few => ?_⟩
      simp only [skip]
      rw [if_neg (by simp only [extend, List.length_append]; omega)]
      rfl

theorem take_eq_peek_skip : (take : Reader UInt8) = (do let b ← peek; skip 1; return b) := by
  funext s
  obtain ⟨taken, rest⟩ := s
  cases rest with
  | nil => rfl
  | cons b rest => rfl

theorem Steady.bind {r : Reader α} {f : α → Reader β} (hr : Steady r) (hf : ∀ a, Steady (f a)) :
    Steady (r >>= f) where
  ok h := by
    obtain ⟨a, s', h₁, h₂⟩ := bind_eq_ok_iff.1 h
    obtain ⟨⟨u, takes₁⟩, same₁⟩ := hr.ok h₁
    obtain ⟨⟨v, takes₂⟩, same₂⟩ := (hf a).ok h₂
    exact ⟨⟨u ++ v, takes₁.trans takes₂⟩,
      fun more => bind_eq_ok_iff.2 ⟨a, _, same₁ more, same₂ more⟩⟩
  broken h := by
    obtain h₁ | ⟨a, s', h₁, h₂⟩ := bind_eq_error_iff.1 h
    · exact ⟨(hr.broken h₁).1, fun more => bind_eq_error_iff.2 (.inl ((hr.broken h₁).2 more))⟩
    · exact ⟨((hf a).broken h₂).1, fun more => bind_eq_error_iff.2
        (.inr ⟨a, _, (hr.ok h₁).2 more, ((hf a).broken h₂).2 more⟩)⟩
  wants h := by
    obtain h₁ | ⟨a, s', h₁, h₂⟩ := bind_eq_error_iff.1 h
    · exact ⟨(hr.wants h₁).1,
        fun more few => bind_eq_error_iff.2 (.inl ((hr.wants h₁).2 more few))⟩
    · obtain ⟨⟨word, takes⟩, same⟩ := hr.ok h₁
      obtain ⟨lacks, keeps⟩ := (hf a).wants h₂
      rw [takes.total] at lacks keeps
      exact ⟨lacks, fun more few => bind_eq_error_iff.2
        (.inr ⟨a, _, same more, keeps more few⟩)⟩

theorem steady_take : Steady (take : Reader UInt8) := by
  rw [take_eq_peek_skip]
  exact steady_peek.bind fun b => (steady_skip 1).bind fun _ => steady_pure b

/-! ## Readers that break no rule -/

/-- A reader that may ask for bytes that are not there, and refuses none that are. -/
def Unbroken (r : Reader α) : Prop :=
  ∀ s reason, r s ≠ .error (.broken reason)

theorem unbroken_pure (a : α) : Unbroken (pure a : Reader α) := by
  intro s reason h
  cases h

theorem unbroken_peek : Unbroken (peek : Reader UInt8) := by
  intro s reason h
  simp only [peek] at h
  split at h <;> cases h

theorem unbroken_take : Unbroken (take : Reader UInt8) := by
  intro s reason h
  simp only [take] at h
  split at h <;> cases h

theorem unbroken_skip (count : Nat) : Unbroken (skip count : Reader Unit) := by
  intro s reason h
  simp only [skip] at h
  split at h <;> cases h

theorem unbroken_consumed : Unbroken (consumed : Reader UInt8) := by
  intro s reason h
  cases h

theorem Unbroken.bind {r : Reader α} {f : α → Reader β} (hr : Unbroken r)
    (hf : ∀ a, Unbroken (f a)) : Unbroken (r >>= f) := by
  intro s reason h
  rcases bind_eq_error_iff.1 h with h | ⟨a, s', -, h⟩
  · exact hr s reason h
  · exact hf a s' reason h

/-- Behind a reader that breaks no rule, only what follows can. -/
theorem Unbroken.bind_eq_broken_iff {r : Reader α} {f : α → Reader β} (hr : Unbroken r)
    {s : Ahead} {reason : Rejection} :
    (r >>= f) s = .error (.broken reason) ↔
      ∃ a s', r s = .ok (a, s') ∧ f a s' = .error (.broken reason) := by
  rw [bind_eq_error_iff]
  exact or_iff_right (hr s reason)

end Reader

end CodeSpans.X86
