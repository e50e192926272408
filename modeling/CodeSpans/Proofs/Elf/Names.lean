import CodeSpans.Proofs.Elf.Table

/-!
# Names

A name is what stands before the first NUL at or behind its offset, in the bytes that are recorded
for the section that holds the names (`SectionTable.name_eq_ok_iff`). A search by name passes
sections whose names resolve to others and ends at the first that it does not pass
(`SectionTable.findIn_cases`): there the name is the one that is wanted, or it does not resolve.
-/

namespace CodeSpans.Elf

/-! ## What stands before a NUL -/

theorem upToNul_append {text rest : List UInt8} (visible : 0 ∉ text) :
    upToNul (text ++ 0 :: rest) = some text := by
  have ended : (text ++ 0 :: rest).contains 0 = true := by simp
  have cut : (text ++ 0 :: rest).takeWhile (· != 0) = text := by
    rw [List.takeWhile_append_of_pos]
    · simp
    · intro b mem
      rw [bne_iff_ne]
      rintro rfl
      exact visible mem
  rw [upToNul, if_pos ended, cut]

theorem upToNul_eq_some_iff {bytes text : List UInt8} :
    upToNul bytes = some text ↔ ∃ rest, bytes = text ++ 0 :: rest ∧ 0 ∉ text := by
  constructor
  · intro h
    have ended : 0 ∈ bytes := by
      unfold upToNul at h
      split at h
      · next ended => exact List.contains_iff_mem.1 ended
      · cases h
    obtain ⟨before, rest, rfl, visible⟩ := List.eq_append_cons_of_mem ended
    rw [upToNul_append visible] at h
    obtain rfl := Option.some_inj.1 h
    exact ⟨rest, rfl, visible⟩
  · intro h
    obtain ⟨rest, rfl, visible⟩ := h
    exact upToNul_append visible

/-- Of the NULs among some bytes that stand at `n` or behind, the first is at `m`. -/
structure FirstNul (bytes : List UInt8) (n m : Nat) : Prop where
  le : n ≤ m
  nul : bytes[m]? = some 0
  first : ∀ i, n ≤ i → i < m → bytes[i]? ≠ some 0

theorem FirstNul.lt {bytes : List UInt8} {n m : Nat} (h : FirstNul bytes n m) :
    n < bytes.length := by
  obtain ⟨lt, -⟩ := List.getElem?_eq_some_iff.1 h.nul
  exact Nat.lt_of_le_of_lt h.le lt

theorem upToNul_drop_eq_some_iff {bytes text : List UInt8} {n : Nat} :
    upToNul (bytes.drop n) = some text ↔
      ∃ m, FirstNul bytes n m ∧ text = bytes.extract n m := by
  rw [upToNul_eq_some_iff]
  constructor
  · intro h
    obtain ⟨rest, behind, visible⟩ := h
    have there : ∀ i, bytes[n + i]? = (text ++ 0 :: rest)[i]? := by
      intro i
      rw [← behind, List.getElem?_drop]
    refine ⟨n + text.length, ⟨Nat.le_add_right _ _, ?_, ?_⟩, ?_⟩
    · rw [there]
      simp
    · intro i le lt nul
      obtain ⟨k, rfl⟩ := Nat.exists_eq_add_of_le le
      rw [there, List.getElem?_append_left (by omega)] at nul
      exact visible (List.mem_of_getElem? nul)
    · rw [List.extract_eq_take_drop, Nat.add_sub_cancel_left, behind, List.take_left]
  · intro h
    obtain ⟨m, found, rfl⟩ := h
    obtain ⟨k, rfl⟩ := Nat.exists_eq_add_of_le found.le
    rw [List.extract_eq_take_drop, Nat.add_sub_cancel_left]
    refine ⟨bytes.drop (n + k + 1), ?_, ?_⟩
    · obtain ⟨lt, nul⟩ := List.getElem?_eq_some_iff.1 found.nul
      rw [← nul, List.getElem_cons_drop, ← List.drop_drop, List.take_append_drop]
    · intro mem
      obtain ⟨i, lt, here⟩ := List.mem_iff_getElem.1 mem
      rw [List.length_take] at lt
      rw [List.getElem_take, List.getElem_drop] at here
      refine found.first (n + i) (by omega) (by omega) ?_
      rw [← here]
      exact List.getElem?_eq_getElem _

/-- There is a first NUL wherever there is one. -/
theorem exists_firstNul_iff {bytes : List UInt8} {n : Nat} :
    (∃ m, FirstNul bytes n m) ↔ 0 ∈ bytes.drop n := by
  constructor
  · intro h
    obtain ⟨m, found⟩ := h
    obtain ⟨k, rfl⟩ := Nat.exists_eq_add_of_le found.le
    refine List.mem_of_getElem? (i := k) ?_
    rw [List.getElem?_drop]
    exact found.nul
  · intro h
    obtain ⟨text, rest, behind, visible⟩ := List.eq_append_cons_of_mem h
    obtain ⟨m, found, -⟩ :=
      upToNul_drop_eq_some_iff.1 (upToNul_eq_some_iff.2 ⟨rest, behind, visible⟩)
    exact ⟨m, found⟩

/-- The bytes where the entry of a section says that they are, whatever its kind. -/
def Section.recorded (image : View) (s : Section) : List UInt8 :=
  (image.toList.drop s.fileOffset.toNat).take s.size.toNat

namespace SectionTable

variable {t : SectionTable} {wanted : String} {sections : List Section} {s : Section}

/-! ## One name -/

section

variable {holder : Section} (held : t.names = some holder)

include held

theorem name_of_beyond (beyond : t.image.size < holder.fileOffset.toNat + holder.size.toNat) :
    t.name s =
      .error (.truncated ⟨holder.fileOffset.toNat, holder.size.toNat, t.image.size⟩) := by
  unfold name
  rw [held]
  dsimp only
  rw [View.slice_eq_error beyond]
  rfl

theorem name_of_within (within : holder.fileOffset.toNat + holder.size.toNat ≤ t.image.size) :
    t.name s = match upToNul ((holder.recorded t.image).drop s.nameOffset.toNat) with
      | some bytes => .ok (Utf8.decode bytes)
      | none => .error
        (.truncated ⟨holder.fileOffset.toNat + s.nameOffset.toNat, 1, t.image.size⟩) := by
  have table : t.image.slice holder.fileOffset.toNat holder.size.toNat =
      .ok (.ofList (holder.recorded t.image)) := View.slice_eq_ok_iff.2 ⟨within, rfl⟩
  unfold name
  rw [held]
  dsimp only
  rw [table, lift_ok_bind, View.toList_ofList]
  cases upToNul ((holder.recorded t.image).drop s.nameOffset.toNat) <;> rfl

theorem name_eq_ok_iff (within : holder.fileOffset.toNat + holder.size.toNat ≤ t.image.size)
    {text : String} :
    t.name s = .ok text ↔ ∃ m, FirstNul (holder.recorded t.image) s.nameOffset.toNat m ∧
      text = Utf8.decode ((holder.recorded t.image).extract s.nameOffset.toNat m) := by
  rw [name_of_within held within]
  constructor
  · intro h
    split at h
    · next bytes ended =>
      obtain ⟨m, found, rfl⟩ := upToNul_drop_eq_some_iff.1 ended
      exact ⟨m, found, (Except.ok.inj h).symm⟩
    · cases h
  · intro h
    obtain ⟨m, found, rfl⟩ := h
    rw [upToNul_drop_eq_some_iff.2 ⟨m, found, rfl⟩]

theorem name_of_unended (within : holder.fileOffset.toNat + holder.size.toNat ≤ t.image.size)
    (unended : ∀ m, ¬ FirstNul (holder.recorded t.image) s.nameOffset.toNat m) :
    t.name s = .error
      (.truncated ⟨holder.fileOffset.toNat + s.nameOffset.toNat, 1, t.image.size⟩) := by
  rw [name_of_within held within]
  split
  · next bytes ended =>
    obtain ⟨m, found, -⟩ := upToNul_drop_eq_some_iff.1 ended
    exact absurd found (unended m)
  · rfl

end

/-- Names fail for want of bytes, or since there are none. -/
theorem name_error_cases {e : Error} (h : t.name s = .error e) :
    e = .noNames ∧ t.names = none ∨ ∃ o, e = .truncated o := by
  cases held : t.names with
  | none =>
    unfold name at h
    rw [held] at h
    exact .inl ⟨(Except.error.inj h).symm, rfl⟩
  | some holder =>
    right
    rcases Nat.lt_or_ge t.image.size (holder.fileOffset.toNat + holder.size.toNat) with beyond | within
    · rw [name_of_beyond held beyond] at h
      exact ⟨_, (Except.error.inj h).symm⟩
    · rw [name_of_within held within] at h
      split at h
      · cases h
      · exact ⟨_, (Except.error.inj h).symm⟩

/-! ## Searches by name -/

theorem findIn_of_named (named : t.name s = .ok wanted) :
    t.findIn wanted (s :: sections) = .ok s := by
  rw [findIn, firstNamed, named]
  exact if_pos rfl

theorem findIn_of_fails {e : Error} (fails : t.name s = .error e) :
    t.findIn wanted (s :: sections) = .error e := by
  rw [findIn, firstNamed, fails]
  rfl

theorem findIn_of_other {other : String} (named : t.name s = .ok other) (differs : other ≠ wanted) :
    t.findIn wanted (s :: sections) = t.findIn wanted sections := by
  rw [findIn, firstNamed, named]
  exact if_neg differs

/-- Sections whose names resolve to others are passed. -/
theorem findIn_append {before : List Section}
    (others : ∀ b ∈ before, ∃ other, t.name b = .ok other ∧ other ≠ wanted) :
    t.findIn wanted (before ++ sections) = t.findIn wanted sections := by
  induction before with
  | nil => rfl
  | cons b before ih =>
    obtain ⟨other, named, differs⟩ := others b List.mem_cons_self
    rw [List.cons_append, findIn_of_other named differs,
      ih fun c mem => others c (List.mem_cons_of_mem b mem)]

/-- A search passes all sections, or up to one that has the name or whose name does not resolve. -/
theorem findIn_cases (t : SectionTable) (wanted : String) (sections : List Section) :
    (∀ s ∈ sections, ∃ other, t.name s = .ok other ∧ other ≠ wanted) ∨
      ∃ before s after, sections = before ++ s :: after ∧
        (∀ b ∈ before, ∃ other, t.name b = .ok other ∧ other ≠ wanted) ∧
        (t.name s = .ok wanted ∨ ∃ e, t.name s = .error e) := by
  induction sections with
  | nil => exact .inl nofun
  | cons first sections ih =>
    cases named : t.name first with
    | error e => exact .inr ⟨[], first, sections, rfl, nofun, .inr ⟨e, named⟩⟩
    | ok other =>
      by_cases same : other = wanted
      · exact .inr ⟨[], first, sections, rfl, nofun, .inl (same ▸ named)⟩
      · have passed : ∃ other, t.name first = .ok other ∧ other ≠ wanted := ⟨other, named, same⟩
        obtain others | ⟨before, s, after, rfl, others, stops⟩ := ih
        · exact .inl (List.forall_mem_cons.2 ⟨passed, others⟩)
        · exact .inr ⟨first :: before, s, after, rfl, List.forall_mem_cons.2 ⟨passed, others⟩, stops⟩

theorem findIn_of_others (others : ∀ s ∈ sections, ∃ other, t.name s = .ok other ∧ other ≠ wanted) :
    t.findIn wanted sections = .error (.noSuchSection wanted) := by
  have passed : t.findIn wanted (sections ++ []) = t.findIn wanted [] := findIn_append others
  rw [List.append_nil] at passed
  exact passed

/-- The section that is found is the first that has the name. -/
theorem findIn_eq_ok_iff :
    t.findIn wanted sections = .ok s ↔
      ∃ before after, sections = before ++ s :: after ∧
        (∀ b ∈ before, ∃ other, t.name b = .ok other ∧ other ≠ wanted) ∧
        t.name s = .ok wanted := by
  constructor
  · intro h
    obtain others | ⟨before, stop, after, rfl, others, named | ⟨e, fails⟩⟩ :=
      t.findIn_cases wanted sections
    · rw [findIn_of_others others] at h
      cases h
    · rw [findIn_append others, findIn_of_named named] at h
      cases h
      exact ⟨before, after, rfl, others, named⟩
    · rw [findIn_append others, findIn_of_fails fails] at h
      cases h
  · intro h
    obtain ⟨before, after, rfl, others, named⟩ := h
    rw [findIn_append others, findIn_of_named named]

/-- A search fails where all sections have other names, or for the first name that does not
resolve, if it stands before what is wanted. -/
theorem findIn_eq_error_iff {e : Error} :
    t.findIn wanted sections = .error e ↔
      (e = .noSuchSection wanted ∧
        ∀ s ∈ sections, ∃ other, t.name s = .ok other ∧ other ≠ wanted) ∨
      ∃ before s after, sections = before ++ s :: after ∧
        (∀ b ∈ before, ∃ other, t.name b = .ok other ∧ other ≠ wanted) ∧ t.name s = .error e := by
  constructor
  · intro h
    obtain others | ⟨before, stop, after, rfl, others, named | ⟨e', fails⟩⟩ :=
      t.findIn_cases wanted sections
    · rw [findIn_of_others others] at h
      exact .inl ⟨(Except.error.inj h).symm, others⟩
    · rw [findIn_append others, findIn_of_named named] at h
      cases h
    · rw [findIn_append others, findIn_of_fails fails] at h
      cases h
      exact .inr ⟨before, stop, after, rfl, others, fails⟩
  · rintro (⟨rfl, others⟩ | ⟨before, stop, after, rfl, others, fails⟩)
    · exact findIn_of_others others
    · rw [findIn_append others, findIn_of_fails fails]

/-- Where all names resolve, a name that some section has is found. -/
theorem exists_findIn (named : ∀ s ∈ sections, ∃ name, t.name s = .ok name) (mem : s ∈ sections)
    (here : t.name s = .ok wanted) : ∃ found, t.findIn wanted sections = .ok found := by
  obtain others | ⟨before, stop, after, rfl, others, found | ⟨e, fails⟩⟩ :=
    t.findIn_cases wanted sections
  · obtain ⟨other, hother, differs⟩ := others s mem
    rw [here] at hother
    exact absurd (Except.ok.inj hother).symm differs
  · exact ⟨stop, by rw [findIn_append others, findIn_of_named found]⟩
  · obtain ⟨name, hname⟩ := named stop (List.mem_append_right before List.mem_cons_self)
    rw [fails] at hname
    cases hname

end SectionTable

end CodeSpans.Elf
