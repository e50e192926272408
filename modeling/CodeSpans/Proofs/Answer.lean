import Mathlib.Data.List.Forall2

/-!
# Answers that may fail

What it takes for a chain of answers, and for the answers to the items of a list, not to fail; and
how answers are told by the work of another monad (`Telling`).
-/

namespace CodeSpans.Answer

variable {ε α β : Type}

theorem pure_eq_ok_iff {a b : α} : (pure a : Except ε α) = .ok b ↔ a = b :=
  Iff.of_eq (Except.ok.injEq a b)

theorem ok_bind {a : α} {f : α → Except ε β} : Except.ok a >>= f = f a := rfl

theorem bind_eq_ok_iff {x : Except ε α} {f : α → Except ε β} {b : β} :
    x >>= f = .ok b ↔ ∃ a, x = .ok a ∧ f a = .ok b := by
  cases x with
  | error e => simp [bind, Except.bind]
  | ok a => simp [bind, Except.bind]

theorem map_eq_ok_iff {x : Except ε α} {f : α → β} {b : β} :
    x.map f = .ok b ↔ ∃ a, x = .ok a ∧ f a = b := by
  cases x with
  | error e => simp [Except.map]
  | ok a => simp [Except.map]

theorem mapError_eq_ok_iff {ε' : Type} {x : Except ε α} {f : ε → ε'} {a : α} :
    x.mapError f = .ok a ↔ x = .ok a := by
  cases x with
  | error e => simp [Except.mapError]
  | ok a => simp [Except.mapError]

theorem mapM_eq_ok_iff {f : α → Except ε β} {items : List α} {results : List β} :
    items.mapM f = .ok results ↔ List.Forall₂ (fun x r => f x = .ok r) items results := by
  induction items generalizing results with
  | nil =>
    rw [List.mapM_nil, List.forall₂_nil_left_iff]
    exact ⟨fun h => (Except.ok.inj h).symm, fun h => h ▸ rfl⟩
  | cons x items ih =>
    rw [List.mapM_cons, bind_eq_ok_iff, List.forall₂_cons_left_iff]
    constructor
    · rintro ⟨r, hr, h⟩
      rw [bind_eq_ok_iff] at h
      obtain ⟨rest, hrest, same⟩ := h
      exact ⟨r, rest, hr, ih.1 hrest, (Except.ok.inj same).symm⟩
    · rintro ⟨r, rest, hr, hrest, rfl⟩
      refine ⟨r, hr, bind_eq_ok_iff.2 ⟨rest, ih.2 hrest, rfl⟩⟩

theorem exists_ok_iff {x : Except ε α} : (∃ a, x = .ok a) ↔ ∀ e, x ≠ .error e := by
  cases x with
  | error e => simp
  | ok a => simp

theorem mapM_cons_eq_error_iff {f : α → Except ε β} {x : α} {items : List α} {e : ε} :
    (x :: items).mapM f = .error e ↔
      f x = .error e ∨ (∃ r, f x = .ok r) ∧ items.mapM f = .error e := by
  rw [List.mapM_cons]
  cases f x with
  | error e' => simp [bind, Except.bind]
  | ok r =>
    cases items.mapM f with
    | error e' => simp [bind, Except.bind]
    | ok rs => simp [bind, Except.bind, pure, Except.pure]

/-- The answers to a list fail where the first of them does. -/
theorem mapM_eq_error_iff {f : α → Except ε β} {items : List α} {e : ε} :
    items.mapM f = .error e ↔
      ∃ before x after, items = before ++ x :: after ∧ (∀ y ∈ before, ∃ r, f y = .ok r) ∧
        f x = .error e := by
  induction items with
  | nil =>
    rw [List.mapM_nil]
    constructor
    · intro h
      cases h
    · rintro ⟨before, x, after, same, -⟩
      cases before <;> cases same
  | cons x items ih =>
    rw [mapM_cons_eq_error_iff, ih]
    constructor
    · rintro (fails | ⟨answered, before, y, after, rfl, answers, fails⟩)
      · exact ⟨[], x, items, rfl, fun _ mem => absurd mem List.not_mem_nil, fails⟩
      · refine ⟨x :: before, y, after, rfl, fun z mem => ?_, fails⟩
        rcases List.mem_cons.1 mem with rfl | mem
        · exact answered
        · exact answers z mem
    · rintro ⟨before, y, after, same, answers, fails⟩
      cases before with
      | nil =>
        cases same
        exact .inl fails
      | cons z before =>
        cases same
        exact .inr ⟨answers x List.mem_cons_self, before, y, after, rfl,
          fun z mem => answers z (List.mem_cons_of_mem _ mem), fails⟩

/-- Two ways to answer, of which each item makes both fail alike or neither. -/
theorem mapM_eq_error_congr {γ : Type} {f : α → Except ε β} {g : α → Except ε γ} {items : List α}
    (same : ∀ x ∈ items, ∀ e, f x = .error e ↔ g x = .error e) {e : ε} :
    items.mapM f = .error e ↔ items.mapM g = .error e := by
  induction items with
  | nil => exact ⟨nofun, nofun⟩
  | cons x items ih =>
    have rest := ih fun y mem => same y (List.mem_cons_of_mem _ mem)
    simp only [mapM_cons_eq_error_iff, exists_ok_iff, Ne, same x List.mem_cons_self, rest]

theorem exists_mapM_eq_ok {f : α → Except ε β} {items : List α}
    (answered : ∀ x ∈ items, ∃ r, f x = .ok r) : ∃ results, items.mapM f = .ok results := by
  cases h : items.mapM f with
  | ok results => exact ⟨results, rfl⟩
  | error e =>
    obtain ⟨before, x, after, rfl, -, fails⟩ := mapM_eq_error_iff.1 h
    obtain ⟨r, hr⟩ := answered x (List.mem_append_right _ List.mem_cons_self)
    rw [hr] at fails
    cases fails

theorem refuse_bind {c : Prop} [Decidable c] {e : ε} {x : Except ε α} {f : α → Except ε β} :
    (if c then .error e else x) >>= f = if c then .error e else x >>= f := by
  by_cases h : c
  · rw [if_pos h, if_pos h]
    rfl
  · rw [if_neg h, if_neg h]

/-- A chain that goes on only if a condition does not hold. -/
theorem refuse_eq_ok_iff {c : Prop} [Decidable c] {e : ε} {f : PUnit → Except ε β} {b : β} :
    (if c then throw e >>= f else f ⟨⟩) = .ok b ↔ ¬c ∧ f ⟨⟩ = .ok b := by
  by_cases h : c
  · rw [if_pos h]
    exact ⟨nofun, fun both => absurd h both.1⟩
  · rw [if_neg h, and_iff_right h]

theorem refuse_last_eq_ok_iff {c : Prop} [Decidable c] {e : ε} {u : PUnit} :
    (if c then throw e else pure ⟨⟩ : Except ε PUnit) = .ok u ↔ ¬c := by
  by_cases h : c
  · rw [if_pos h]
    exact ⟨nofun, fun not => absurd h not⟩
  · rw [if_neg h]
    exact ⟨fun _ => h, fun _ => rfl⟩

/-- Every result is the answer to one of the items. -/
theorem exists_of_mem {R : α → β → Prop} {items : List α} {results : List β} {r : β}
    (h : List.Forall₂ R items results) (mem : r ∈ results) : ∃ x ∈ items, R x r := by
  induction h with
  | nil => cases mem
  | cons first _ ih =>
    rcases List.mem_cons.1 mem with rfl | mem
    · exact ⟨_, List.mem_cons_self, first⟩
    · obtain ⟨x, hx, hr⟩ := ih mem
      exact ⟨x, List.mem_cons_of_mem _ hx, hr⟩

/-- Every item has a result. -/
theorem exists_result {R : α → β → Prop} {items : List α} {results : List β} {x : α}
    (h : List.Forall₂ R items results) (mem : x ∈ items) : ∃ r ∈ results, R x r :=
  exists_of_mem h.flip mem

/-- Results of the same items. -/
theorem forall₂_of_same_items {γ : Type} {R : α → β → Prop} {S : α → γ → Prop} {Q : β → γ → Prop}
    {items : List α} {results : List β} {others : List γ} (h : List.Forall₂ R items results)
    (h' : List.Forall₂ S items others) (both : ∀ x ∈ items, ∀ r r', R x r → S x r' → Q r r') :
    List.Forall₂ Q results others := by
  induction h generalizing others with
  | nil =>
    cases h'
    exact .nil
  | cons first _ ih =>
    cases h' with
    | cons first' rest' =>
      have here := both _ List.mem_cons_self _ _ first first'
      exact .cons here (ih rest' fun x mem => both x (List.mem_cons_of_mem _ mem))

/-! ## Work that tells answers -/

/-- Answers as the work of a monad, which ends at the first of them that fails. -/
structure Telling (ε : Type) (M : Type → Type) [Monad M] [MonadExcept ε M] where
  of {α : Type} : Except ε α → M α
  pure_eq {α : Type} (a : α) : (pure a : M α) = of (.ok a)
  throw_eq {α : Type} (e : ε) : (throw e : M α) = of (.error e)
  ok_bind {α β : Type} (a : α) (f : α → M β) : of (.ok a) >>= f = f a
  error_bind {α β : Type} (e : ε) (f : α → M β) : of (.error e) >>= f = of (.error e)

/-- Answers tell themselves. -/
def Telling.itself (ε : Type) : Telling ε (Except ε) where
  of x := x
  pure_eq _ := rfl
  throw_eq _ := rfl
  ok_bind _ _ := rfl
  error_bind _ _ := rfl

namespace Telling

variable {M : Type → Type} [Monad M] [MonadExcept ε M] (told : Telling ε M)

/-- Work behind an answer, which is only looked at where it is come to. -/
theorem bind {x : Except ε α} {f : α → M β} {g : α → Except ε β}
    (behind : ∀ a, x = .ok a → f a = told.of (g a)) : told.of x >>= f = told.of (x >>= g) := by
  cases x with
  | error e => exact told.error_bind e f
  | ok a => exact (told.ok_bind a f).trans (behind a rfl)

theorem ite {c : Prop} [Decidable c] {f g : M α} {x y : Except ε α} (holds : c → f = told.of x)
    (fails : ¬c → g = told.of y) : (if c then f else g) = told.of (if c then x else y) := by
  by_cases h : c
  · rw [if_pos h, if_pos h, holds h]
  · rw [if_neg h, if_neg h, fails h]

theorem mapM [LawfulMonad M] {f : α → M β} {g : α → Except ε β} {items : List α}
    (same : ∀ x ∈ items, f x = told.of (g x)) : items.mapM f = told.of (items.mapM g) := by
  induction items with
  | nil => exact told.pure_eq []
  | cons x items ih =>
    rw [List.mapM_cons, List.mapM_cons, same x List.mem_cons_self]
    refine told.bind fun y _ => ?_
    rw [ih fun z mem => same z (List.mem_cons_of_mem _ mem)]
    exact told.bind fun _ _ => told.pure_eq _

/-- Work that goes on only if a condition does not hold. -/
theorem refuse {c : Prop} [Decidable c] {e : ε} {f : PUnit → M β} {g : PUnit → Except ε β}
    (behind : ¬c → f ⟨⟩ = told.of (g ⟨⟩)) :
    (if c then throw e >>= f else f ⟨⟩) = told.of (if c then throw e >>= g else g ⟨⟩) := by
  refine told.ite (fun _ => ?_) behind
  rw [told.throw_eq]
  exact told.error_bind e f

end Telling

end CodeSpans.Answer
