import CodeSpans.Proofs.Elf.Indexing
import CodeSpans.Proofs.Elf.Layout
import CodeSpans.Proofs.Elf.Names
import CodeSpans.Proofs.Text.Utf8

/-!
# Built images read back

A built image is indexed, and its sections are the parts it was built from: each entry is recorded
as it was written (`Image.Recorded`), and names and contents are found where the records say
(`SectionTable.Repeats`).
-/

namespace CodeSpans

theorem View.slice_of_prefix {v : View} {bytes : List UInt8} {offset : Nat}
    (h : bytes <+: v.toList.drop offset) (within : offset + bytes.length ≤ v.size) :
    v.slice offset bytes.length = .ok (.ofList bytes) := by
  apply slice_eq_ok_iff.2
  refine ⟨within, ?_⟩
  obtain ⟨rest, h⟩ := h
  rw [← h, List.take_left, toList_ofList]

namespace Elf

namespace Image

variable {i : Image} {index : Nat} {p : Part} {s : Section}

/-- A record says what a part is, and where its name and its content are. -/
structure Recorded (i : Image) (p : Part) (s : Section) : Prop where
  kind_eq : s.kind = p.kind
  flags_eq : s.flags = p.flags
  size_eq : s.size.toNat = p.size
  isExecutable_iff : s.isExecutable ↔ p.kind = progBits ∧ p.flags &&& flagExec ≠ 0
  name : p.nameBytes <+: i.names.drop s.nameOffset.toNat
  content : p.content <+: i.toView.toList.drop s.fileOffset.toNat
  within : s.fileOffset.toNat + p.content.length ≤ i.toView.size

theorem Lays.contained (lays : i.Lays index p) (added : p.Added) :
    Stored.Contained i.toView index := by
  obtain ⟨e, stores, placed⟩ := lays
  intro hasContent
  have kind : p.kind ≠ noBits := by
    rintro reserved
    rw [stores.kind_eq, placed.kind_eq, reserved] at hasContent
    exact hasContent rfl
  have within := placed.within
  rw [← added.size_eq kind, ← placed.size_eq] at within
  rw [stores.fileOffset_eq, stores.size_eq, size_toView]
  exact within

theorem Lays.recorded (lays : i.Lays index p) (d : s.Describes i.toView index) :
    i.Recorded p s := by
  obtain ⟨e, stores, placed⟩ := lays
  have kind : s.kind = p.kind := by
    rw [← placed.kind_eq]
    exact UInt32.toNat_inj.1 (d.kind_eq.trans stores.kind_eq)
  have flags : s.flags = p.flags := by
    rw [← placed.flags_eq]
    exact UInt64.toNat_inj.1 (d.flags_eq.trans stores.flags_eq)
  have nameOffset := d.nameOffset_eq.trans stores.nameOffset_eq
  have fileOffset := d.fileOffset_eq.trans stores.fileOffset_eq
  refine ⟨kind, flags, ?_, ?_, ?_, ?_, ?_⟩
  · rw [d.size_eq, stores.size_eq, placed.size_eq]
  · rw [d.isExecutable_iff, ← d.kind_eq, ← d.flags_eq, kind, flags, ← Section.holdsCode_iff,
      Section.holdsCode]
    simp
  · rw [nameOffset]
    exact placed.name
  · rw [fileOffset]
    exact placed.content
  · rw [fileOffset, size_toView]
    exact placed.within

theorem Buildable.exists_ofImage (b : i.Buildable) :
    ∃ t, SectionTable.ofImage i.toView = .ok t := by
  apply SectionTable.exists_ofImage b.located
  intro index lt
  rw [b.count_stored] at lt
  obtain ⟨p, mem, lays⟩ := Answer.exists_result b.lays (List.mem_range.2 lt)
  exact lays.contained (b.added_of_mem mem)

variable {t : SectionTable}

theorem Buildable.recorded (b : i.Buildable) (d : t.Describes i.toView) :
    List.Forall₂ i.Recorded i.allParts t.sections := by
  have sections := d.sections
  rw [b.count_stored] at sections
  exact Answer.forall₂_of_same_items b.lays sections fun index _ p s lays ds => lays.recorded ds

/-- The section that holds the names, by its record. -/
theorem Buildable.exists_holder (b : i.Buildable) (d : t.Describes i.toView) :
    ∃ holder, t.names = some holder ∧ i.Recorded i.namesPart holder := by
  have recorded := b.recorded d
  have last : i.allParts[i.parts.length + 1]? = some i.namesPart := by
    rw [allParts, List.cons_append, List.getElem?_cons_succ, List.getElem?_concat_length]
  obtain ⟨lt, here⟩ := List.getElem?_eq_some_iff.1 last
  have lt' : i.parts.length + 1 < t.sections.length := by
    rw [← recorded.length_eq]
    exact lt
  refine ⟨t.sections[i.parts.length + 1], ?_, ?_⟩
  · rw [d.names_eq, b.namesIndex_stored, if_neg (Nat.succ_ne_zero _)]
    exact List.getElem?_eq_getElem lt'
  · have entry := recorded.get lt lt'
    rw [List.get_eq_getElem, List.get_eq_getElem, here] at entry
    exact entry

theorem Recorded.name_eq {holder : Section} (recorded : i.Recorded p s)
    (names : i.Recorded i.namesPart holder) (held : t.names = some holder)
    (image : t.image = i.toView) (visible : '\x00' ∉ p.name.toList) : t.name s = .ok p.name := by
  have table : holder.recorded t.image = i.names := by
    rw [Section.recorded, image, names.size_eq]
    exact (List.prefix_iff_eq_take.1 names.content).symm
  have within : holder.fileOffset.toNat + holder.size.toNat ≤ t.image.size := by
    rw [image, names.size_eq]
    exact names.within
  obtain ⟨rest, behind⟩ := recorded.name
  have ended : upToNul (i.names.drop s.nameOffset.toNat) = some p.name.toUTF8.data.toList := by
    rw [← behind, Part.nameBytes, List.append_assoc]
    exact upToNul_append (Utf8.zero_not_mem_toUTF8 visible)
  rw [SectionTable.name_of_within held within, table, ended]
  exact congrArg Except.ok (Utf8.decode_toUTF8 p.name)

theorem Recorded.content_eq (recorded : i.Recorded p s) (added : p.Added)
    (image : t.image = i.toView) :
    t.content s = .ok (if p.kind = noBits then .empty else .ofList p.content) := by
  unfold SectionTable.content
  by_cases reserved : p.kind = noBits
  · rw [if_pos reserved, Section.content_of_noBits (recorded.kind_eq.trans reserved)]
  · have size : s.size.toNat = p.content.length := recorded.size_eq.trans (added.size_eq reserved)
    rw [if_neg reserved, Section.content_of_kind_ne (recorded.kind_eq ▸ reserved), image, size,
      View.slice_of_prefix recorded.content recorded.within]
    rfl

end Image

/-- A section of an index is what a part was. -/
structure SectionTable.Repeats (t : SectionTable) (p : Part) (s : Section) : Prop where
  kind_eq : s.kind = p.kind
  flags_eq : s.flags = p.flags
  size_eq : s.size.toNat = p.size
  isExecutable_iff : s.isExecutable ↔ p.kind = progBits ∧ p.flags &&& flagExec ≠ 0
  name_eq : t.name s = .ok p.name
  content_eq : t.content s = .ok (if p.kind = noBits then .empty else .ofList p.content)

namespace Image

variable {i : Image} {t : SectionTable}

theorem Buildable.repeats (b : i.Buildable) (d : t.Describes i.toView) :
    List.Forall₂ t.Repeats i.allParts t.sections := by
  obtain ⟨holder, held, names⟩ := b.exists_holder d
  have recorded := (List.forall₂_and_left _ _).2
    ⟨fun p mem => (mem : p ∈ i.allParts), b.recorded d⟩
  refine recorded.imp fun p s ⟨mem, r⟩ => ?_
  have name := r.name_eq names held d.image_eq (b.visible_of_mem mem)
  have content := r.content_eq (b.added_of_mem mem) d.image_eq
  exact ⟨r.kind_eq, r.flags_eq, r.size_eq, r.isExecutable_iff, name, content⟩

theorem machine_eq (d : t.Describes i.toView) : t.header.machine = i.machine := by
  apply UInt16.toNat_inj.1
  rw [d.header.machine_eq, i.number_machine]

/-- Of the sections that have the name of a part, a search finds the lowest. -/
theorem Buildable.find_part (b : i.Buildable) (d : t.Describes i.toView) {p : Part}
    (mem : p ∈ i.parts) :
    ∃ s ∈ t.sections, t.find p.name = .ok s ∧ t.name s = .ok p.name ∧
      ∀ s' ∈ t.sections, t.name s' = .ok p.name → s.index ≤ s'.index := by
  have repeats := b.repeats d
  have named : ∀ s ∈ t.sections, ∃ name, t.name s = .ok name := by
    intro s mem
    obtain ⟨q, -, r⟩ := Answer.exists_of_mem repeats mem
    exact ⟨q.name, r.name_eq⟩
  have among : p ∈ i.allParts :=
    List.mem_append_left _ (List.mem_cons_of_mem _ mem)
  obtain ⟨own, inTable, r⟩ := Answer.exists_result repeats among
  obtain ⟨s, found⟩ := SectionTable.exists_findIn named inTable r.name_eq
  obtain ⟨before, after, split, others, here⟩ := SectionTable.findIn_eq_ok_iff.1 found
  have index := d.index_of_split split
  refine ⟨s, by simp [split], found, here, ?_⟩
  intro s' mem' here'
  obtain ⟨j, lt', rfl⟩ := List.mem_iff_getElem.1 mem'
  rw [(d.getElem lt').index_eq, index]
  by_contra lower
  -- a section in front of the one that is found has another name
  have ahead : t.sections[j] ∈ before := by
    have inFront : j < before.length := Nat.not_le.1 lower
    simp only [split, List.getElem_append_left inFront]
    exact List.getElem_mem inFront
  obtain ⟨other, hother, differs⟩ := others _ ahead
  rw [here'] at hother
  exact differs (Except.ok.inj hother).symm

/-- The parts that are swept. -/
def codeParts (i : Image) : List Part :=
  i.parts.filter fun p => p.kind = progBits ∧ p.flags &&& flagExec ≠ 0

theorem Buildable.executable_repeats (b : i.Buildable) (d : t.Describes i.toView) :
    List.Forall₂ t.Repeats i.codeParts t.executable := by
  have all : i.codeParts =
      i.allParts.filter fun p => p.kind = progBits ∧ p.flags &&& flagExec ≠ 0 := by
    have null : ¬(nullPart.kind = progBits ∧ nullPart.flags &&& flagExec ≠ 0) := by decide
    have last : ¬(i.namesPart.kind = progBits ∧ i.namesPart.flags &&& flagExec ≠ 0) := by
      rintro ⟨kind, -⟩
      exact absurd kind (by decide : strTab ≠ progBits)
    simp only [allParts, List.cons_append, List.filter_cons, List.filter_append, null, last]
    simp [codeParts]
  rw [all]
  refine List.rel_filter (fun p s r => ?_) (b.repeats d)
  exact decide_eq_true_iff.trans r.isExecutable_iff.symm

end Image

end Elf

end CodeSpans
