import CodeSpans.Proofs.Answer
import Mathlib.Logic.Relation

/-!
# Schedules of tasks

Each item has a task that answers for it. Tasks complete in any order, and once one has failed those
that still wait may be skipped (`Tasks.Step`). When none waits, the answers are collected by the
places of their items, or else any failure that was met is the answer (`Tasks.Collected`). Whatever
the schedule, the collected answers are those of the items one after another, and a failure is one
of an item (`Tasks.outcome_ok_iff`, `Tasks.outcome_error_iff`). The invariant is `Tasks.Sound`: a slot
holds the answer to the item at its place, and nothing is skipped without a failure.
-/

namespace CodeSpans

namespace Tasks

/-- What has become of a task. -/
inductive Slot (ε β : Type) where
  | waiting
  | skipped
  | answered (result : Except ε β)

def Slot.value? {ε β : Type} : Slot ε β → Option β
  | .answered (.ok r) => some r
  | _ => none

variable {ε α β : Type} (answer : α → Except ε β) (items : List α)

/-- One event of a schedule. -/
inductive Step : List (Slot ε β) → List (Slot ε β) → Prop where
  | complete {slots : List (Slot ε β)} {i : Nat} {item : α} (waits : slots[i]? = some .waiting)
      (place : items[i]? = some item) : Step slots (slots.set i (.answered (answer item)))
  | skip {slots : List (Slot ε β)} {i : Nat} {e : ε} (waits : slots[i]? = some .waiting)
      (failed : Slot.answered (.error e) ∈ slots) : Step slots (slots.set i .skipped)

/-- The slots before any event. -/
def start : List (Slot ε β) := items.map fun _ => .waiting

/-- The slots that a schedule comes to. -/
def Reaches (slots : List (Slot ε β)) : Prop :=
  Relation.ReflTransGen (Step answer items) (start items) slots

def Settled (slots : List (Slot ε β)) : Prop := Slot.waiting ∉ slots

/-- What may be made of slots when no task waits: the values that there are, in order of the
places, unless there is a failure. -/
inductive Collected (slots : List (Slot ε β)) : Except ε (List β) → Prop where
  | ok (sane : ∀ e, Slot.answered (.error e) ∉ slots) :
      Collected slots (.ok (slots.filterMap Slot.value?))
  | error {e : ε} (failed : Slot.answered (.error e) ∈ slots) : Collected slots (.error e)

/-- An outcome that some schedule has. -/
def Outcome (outcome : Except ε (List β)) : Prop :=
  ∃ slots, Reaches answer items slots ∧ Settled slots ∧ Collected slots outcome

/-- Slots hold the answers to the items at their places, and a skipped one stands beside a
failure. -/
structure Sound (slots : List (Slot ε β)) : Prop where
  length_eq : slots.length = items.length
  answered : ∀ (i : Nat) (result : Except ε β), slots[i]? = some (.answered result) →
    ∃ item, items[i]? = some item ∧ answer item = result
  skipped : Slot.skipped ∈ slots → ∃ e, Slot.answered (.error e) ∈ slots

variable {answer items} {slots slots' : List (Slot ε β)}

/-! ## One event -/

theorem mem_set_of_waiting {i : Nat} {slot slot' : Slot ε β} (waits : slots[i]? = some .waiting)
    (other : slot ≠ .waiting) (mem : slot ∈ slots) : slot ∈ slots.set i slot' := by
  obtain ⟨j, held⟩ := List.mem_iff_getElem?.1 mem
  have apart : i ≠ j := by
    rintro rfl
    exact other (Option.some.inj (held.symm.trans waits))
  apply List.mem_iff_getElem?.2
  exact ⟨j, (List.getElem?_set_ne apart).trans held⟩

theorem Step.mem_answered (step : Step answer items slots slots') {result : Except ε β}
    (mem : Slot.answered result ∈ slots) : Slot.answered result ∈ slots' := by
  cases step with
  | complete waits place => exact mem_set_of_waiting waits nofun mem
  | skip waits failed => exact mem_set_of_waiting waits nofun mem

/-- No event breaks the invariant. -/
theorem Sound.step (sound : Sound answer items slots) (step : Step answer items slots slots') :
    Sound answer items slots' := by
  have failure : ∀ e, Slot.answered (.error e) ∈ slots → Slot.answered (.error e) ∈ slots' :=
    fun e mem => step.mem_answered mem
  cases step with
  | @complete i item waits place =>
    refine ⟨by rw [List.length_set, sound.length_eq], fun j result held => ?_, fun mem => ?_⟩
    · rw [List.getElem?_set] at held
      split_ifs at held with here within
      · subst here
        cases held
        exact ⟨item, place, rfl⟩
      · exact sound.answered j result held
    · rcases List.mem_or_eq_of_mem_set mem with mem | same
      · obtain ⟨e, he⟩ := sound.skipped mem
        exact ⟨e, failure e he⟩
      · cases same
  | @skip i e waits failed =>
    refine ⟨by rw [List.length_set, sound.length_eq], fun j result held => ?_, fun _ => ?_⟩
    · rw [List.getElem?_set] at held
      split_ifs at held with here within
      · cases held
      · exact sound.answered j result held
    · exact ⟨e, failure e failed⟩

def Slot.isWaiting : Slot ε β → Bool
  | .waiting => true
  | _ => false

def waitingCount (slots : List (Slot ε β)) : Nat := slots.countP Slot.isWaiting

theorem waitingCount_set_lt {i : Nat} {slot : Slot ε β} (waits : slots[i]? = some .waiting)
    (other : slot.isWaiting = false) : waitingCount (slots.set i slot) < waitingCount slots := by
  obtain ⟨lt, here⟩ := List.getElem?_eq_some_iff.1 waits
  have positive : 0 < waitingCount slots := by
    apply List.countP_pos_iff.2
    exact ⟨slots[i], List.getElem_mem lt, by rw [here]; rfl⟩
  have after : waitingCount (slots.set i slot) = waitingCount slots - 1 := by
    unfold waitingCount
    rw [List.countP_set lt, here, other]
    rfl
  omega

theorem Step.waitingCount_lt (step : Step answer items slots slots') :
    waitingCount slots' < waitingCount slots := by
  cases step with
  | complete waits place => exact waitingCount_set_lt waits rfl
  | skip waits failed => exact waitingCount_set_lt waits rfl

/-- Every schedule ends. -/
theorem wellFounded_step (answer : α → Except ε β) (items : List α) :
    WellFounded fun slots' slots => Step answer items slots slots' := by
  have byCount : WellFounded fun slots' slots : List (Slot ε β) =>
      waitingCount slots' < waitingCount slots := InvImage.wf waitingCount Nat.lt_wfRel.wf
  exact Subrelation.wf (fun step => step.waitingCount_lt) byCount

/-! ## Whole schedules -/

theorem sound_start : Sound answer items (start items) := by
  have waits : ∀ slot ∈ (start items : List (Slot ε β)), slot = .waiting := by
    intro slot mem
    obtain ⟨item, -, rfl⟩ := List.mem_map.1 mem
    rfl
  refine ⟨List.length_map _, fun i result held => ?_, fun mem => ?_⟩
  · cases waits _ (List.mem_of_getElem? held)
  · cases waits _ mem

theorem Reaches.sound (reaches : Reaches answer items slots) : Sound answer items slots := by
  induction reaches with
  | refl => exact sound_start
  | tail _ step ih => exact ih.step step

/-- Tasks that wait can all be completed. -/
theorem Sound.exists_settled (sound : Sound answer items slots) :
    ∃ slots', Relation.ReflTransGen (Step answer items) slots slots' ∧ Settled slots' := by
  induction slots using (wellFounded_step answer items).induction with
  | _ slots ih =>
    by_cases settled : Settled slots
    · exact ⟨slots, .refl, settled⟩
    · obtain ⟨i, lt, waits⟩ := List.mem_iff_getElem.1 (not_not.1 settled)
      have within : i < items.length := by rw [← sound.length_eq]; exact lt
      -- that task completes next, which leaves one task less to wait
      have step : Step answer items slots (slots.set i (.answered (answer items[i]))) :=
        .complete (List.getElem?_eq_some_iff.2 ⟨lt, waits⟩) (List.getElem?_eq_getElem within)
      obtain ⟨slots', further, settled⟩ := ih _ step (sound.step step)
      exact ⟨slots', .head step further, settled⟩

theorem exists_collected (slots : List (Slot ε β)) : ∃ outcome, Collected slots outcome := by
  by_cases failed : ∃ e, Slot.answered (.error e) ∈ slots
  · obtain ⟨e, mem⟩ := failed
    exact ⟨.error e, .error mem⟩
  · exact ⟨_, .ok fun e mem => failed ⟨e, mem⟩⟩

theorem mem_answered_of_steps (steps : Relation.ReflTransGen (Step answer items) slots slots')
    {result : Except ε β} (mem : Slot.answered result ∈ slots) :
    Slot.answered result ∈ slots' := by
  induction steps with
  | refl => exact mem
  | tail _ step ih => exact step.mem_answered ih

/-- Without a failure nothing is skipped, so every item has its answer. -/
theorem Sound.forall₂_value (sound : Sound answer items slots) (settled : Settled slots)
    (sane : ∀ e, Slot.answered (.error e) ∉ slots) :
    List.Forall₂ (fun item r => answer item = .ok r) items (slots.filterMap Slot.value?) := by
  have all : ∀ slot ∈ slots, ∃ r, slot = .answered (.ok r) := by
    intro slot mem
    rcases slot with _ | _ | (e | r)
    · exact absurd mem settled
    · obtain ⟨e, failed⟩ := sound.skipped mem
      exact absurd failed (sane e)
    · exact absurd mem (sane e)
    · exact ⟨r, rfl⟩
  have answers : List.Forall₂ (fun item slot => slot = .answered (answer item)) items slots := by
    rw [List.forall₂_iff_get]
    refine ⟨sound.length_eq.symm, fun i within lt => ?_⟩
    obtain ⟨r, held⟩ := all _ (List.get_mem slots ⟨i, lt⟩)
    obtain ⟨item, place, same⟩ :=
      sound.answered i (.ok r) (List.getElem?_eq_some_iff.2 ⟨lt, held⟩)
    have here : items[i] = item := (List.getElem?_eq_some_iff.1 place).2
    show slots.get ⟨i, lt⟩ = .answered (answer items[i])
    rw [held, here, same]
  clear sound settled sane
  induction answers with
  | nil => exact .nil
  | @cons item slot items slots same _ ih =>
    obtain ⟨r, rfl⟩ := all _ List.mem_cons_self
    refine .cons (Slot.answered.inj same).symm (ih fun slot mem => ?_)
    exact all slot (List.mem_cons_of_mem _ mem)

/-- Some schedule goes on from any slots that are reached, and comes to an end. -/
theorem Reaches.exists_outcome (reaches : Reaches answer items slots) :
    ∃ slots' outcome, Relation.ReflTransGen (Step answer items) slots slots' ∧ Settled slots' ∧
      Collected slots' outcome ∧ Outcome answer items outcome := by
  obtain ⟨slots', further, settled⟩ := reaches.sound.exists_settled
  obtain ⟨outcome, collected⟩ := exists_collected slots'
  exact ⟨slots', outcome, further, settled, collected,
    slots', reaches.trans further, settled, collected⟩

theorem outcome_ok_iff {results : List β} :
    Outcome answer items (.ok results) ↔ items.mapM answer = .ok results := by
  have forward : ∀ rs, Outcome answer items (.ok rs) → items.mapM answer = .ok rs := by
    rintro _ ⟨slots, reaches, settled, ⟨sane⟩⟩
    exact Answer.mapM_eq_ok_iff.2 (reaches.sound.forall₂_value settled sane)
  refine ⟨forward results, fun answers => ?_⟩
  obtain ⟨slots, outcome, further, settled, collected, possible⟩ :=
    Reaches.exists_outcome (.refl : Reaches answer items (start items))
  cases collected with
  | ok sane =>
    have same := (forward _ possible).symm.trans answers
    rwa [← Except.ok.inj same]
  | error failed =>
    obtain ⟨i, held⟩ := List.mem_iff_getElem?.1 failed
    obtain ⟨item, place, fails⟩ := (Reaches.sound further).answered i _ held
    obtain ⟨r, -, hr⟩ := Answer.exists_result (Answer.mapM_eq_ok_iff.1 answers)
      (List.mem_of_getElem? place)
    rw [hr] at fails
    cases fails

theorem outcome_error_iff {e : ε} :
    Outcome answer items (.error e) ↔ ∃ item ∈ items, answer item = .error e := by
  constructor
  · rintro ⟨slots, reaches, -, collected⟩
    cases collected with | error failed =>
    obtain ⟨i, held⟩ := List.mem_iff_getElem?.1 failed
    obtain ⟨item, place, fails⟩ := reaches.sound.answered i _ held
    exact ⟨item, List.mem_of_getElem? place, fails⟩
  · rintro ⟨item, mem, fails⟩
    -- the failing task is the first to complete
    obtain ⟨i, lt, rfl⟩ := List.mem_iff_getElem.1 mem
    have waits : (start items : List (Slot ε β))[i]? = some .waiting := by simp [start, lt]
    have step : Step answer items (start items) ((start items).set i (.answered (.error e))) := by
      rw [← fails]
      exact .complete waits (List.getElem?_eq_getElem lt)
    have reaches : Reaches answer items _ := .single step
    obtain ⟨slots, further, settled⟩ := reaches.sound.exists_settled
    have failed : Slot.answered (.error e) ∈ slots := by
      apply mem_answered_of_steps further
      apply List.mem_set
      rwa [start, List.length_map]
    exact ⟨slots, reaches.trans further, settled, .error failed⟩

end Tasks

end CodeSpans
