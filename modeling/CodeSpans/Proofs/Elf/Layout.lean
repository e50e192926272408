import CodeSpans.Elf.Image
import CodeSpans.Proofs.Elf.Stored
import Mathlib.Data.List.Forall2

/-!
# What a built image stores

The fields of `Image.toBytes` at their places: those of the file header (`Image.header_number`), by
which the table is found (`Image.Buildable.located`), and those of each entry
(`Image.Buildable.stores`). Names and contents stand where the entries of their parts say
(`Image.entries_placed`).
-/

namespace CodeSpans

/-- A word that is written somewhere in a run of bytes, read where the run stands. -/
theorem View.number_written {v : View} {base : Nat} {bytes rest : List UInt8}
    (h : v.toList.drop base = bytes ++ rest) (width offset n : Nat)
    (within : offset + width ≤ bytes.length)
    (written : (bytes.drop offset).take width = LittleEndian.digits width n) :
    v.number width (base + offset) = n % 256 ^ width := by
  have behind : offset ≤ bytes.length := by omega
  have inside : width ≤ (bytes.drop offset).length := by
    rw [List.length_drop]
    omega
  unfold number
  rw [← List.drop_drop, h, List.drop_append_of_le_length behind,
    List.take_append_of_le_length inside, written, LittleEndian.value_digits]

namespace Elf

open LittleEndian (digits)

/-- A part that is put into an image in one of the ways to do so. -/
inductive Part.Added : Part → Prop where
  | code (name : String) (content : List UInt8) : Added (.code name content)
  | ofContent (name : String) (kind : UInt32) (flags : UInt64) (content : List UInt8) :
      Added (.ofContent name kind flags content)
  | reserved (name : String) (size : UInt64) : Added (.reserved name size.toNat)

theorem Part.Added.size_eq {p : Part} (added : p.Added) (h : p.kind ≠ noBits) :
    p.size = p.content.length := by
  cases added with
  | code => rfl
  | ofContent => rfl
  | reserved => exact absurd rfl h

theorem Part.Added.size_lt {p : Part} (added : p.Added) (h : p.content.length < 2 ^ 64) :
    p.size < 2 ^ 64 := by
  cases added with
  | code => exact h
  | ofContent => exact h
  | reserved name size => exact size.toNat_lt

/-! ## Entries -/

theorem Entry.toBytes_eq (e : Entry) : e.toBytes =
    digits 4 e.nameOffset ++ (digits 4 e.kind.toNat ++ (digits 8 e.flags.toNat ++ (digits 8 0 ++
      (digits 8 e.fileOffset ++ (digits 8 e.size ++ (digits 4 0 ++ (digits 4 0 ++
      (digits 8 1 ++ digits 8 0)))))))) := by
  simp only [toBytes, List.append_assoc]

theorem Entry.length_toBytes (e : Entry) : e.toBytes.length = Entry.width := by
  rw [toBytes_eq]
  rfl

theorem Entry.drop_flatMap {entries : List Entry} {index : Nat} (lt : index < entries.length) :
    ∃ rest, (entries.flatMap toBytes).drop (index * width) = entries[index].toBytes ++ rest := by
  induction entries generalizing index with
  | nil => cases lt
  | cons e entries ih =>
    cases index with
    | zero => exact ⟨entries.flatMap toBytes, by rw [Nat.zero_mul]; rfl⟩
    | succ index =>
      obtain ⟨rest, h⟩ := ih (Nat.lt_of_succ_lt_succ lt)
      refine ⟨rest, ?_⟩
      rw [List.flatMap_cons, Nat.succ_mul, Nat.add_comm, ← List.drop_drop,
        List.drop_left' e.length_toBytes, h]
      rfl

section

variable {v : View} {base : Nat} {e : Entry} {rest : List UInt8}
  (h : v.toList.drop base = e.toBytes ++ rest)

include h

theorem Entry.number_field (width offset n : Nat) (within : offset + width ≤ Entry.width)
    (written : (e.toBytes.drop offset).take width = digits width n) :
    v.number width (base + offset) = n % 256 ^ width := by
  rw [← e.length_toBytes] at within
  exact View.number_written h width offset n within written

theorem Entry.number_nameOffset : v.number 4 base = e.nameOffset % 2 ^ 32 :=
  number_field h 4 0 e.nameOffset (by decide) (by rw [toBytes_eq]; rfl)

theorem Entry.number_kind : v.number 4 (base + 0x04) = e.kind.toNat := by
  rw [number_field h 4 0x04 e.kind.toNat (by decide) (by rw [toBytes_eq]; rfl)]
  exact Nat.mod_eq_of_lt e.kind.toNat_lt

theorem Entry.number_flags : v.number 8 (base + 0x08) = e.flags.toNat := by
  rw [number_field h 8 0x08 e.flags.toNat (by decide) (by rw [toBytes_eq]; rfl)]
  exact Nat.mod_eq_of_lt e.flags.toNat_lt

theorem Entry.number_fileOffset : v.number 8 (base + 0x18) = e.fileOffset % 2 ^ 64 :=
  number_field h 8 0x18 e.fileOffset (by decide) (by rw [toBytes_eq]; rfl)

theorem Entry.number_size : v.number 8 (base + 0x20) = e.size % 2 ^ 64 :=
  number_field h 8 0x20 e.size (by decide) (by rw [toBytes_eq]; rfl)

end

namespace Image

/-! ## Runs of bytes -/

section

variable (i : Image)

/-- The header with its runs nested so that a field is cut out by computation. -/
theorem header_eq : i.header =
    magic ++ ([class64, littleEndian, 1] ++ (List.replicate 9 0 ++ (digits 2 2 ++
      (digits 2 i.machine.toNat ++ (digits 4 1 ++ (digits 8 0 ++ (digits 8 0 ++
      (digits 8 i.tableOffset ++ (digits 4 0 ++ (digits 2 headerSize ++ (digits 2 0 ++
      (digits 2 0 ++ (digits 2 Entry.width ++ (digits 2 i.count ++
      digits 2 (i.count - 1))))))))))))))) := by
  simp only [header, List.append_assoc]

theorem length_header : i.header.length = headerSize := by
  rw [header_eq]
  rfl

theorem length_place (nameOffset fileOffset : Nat) (parts : List Part) :
    (place nameOffset fileOffset parts).length = parts.length := by
  induction parts generalizing nameOffset fileOffset with
  | nil => rfl
  | cons p parts ih => rw [place, List.length_cons, ih, List.length_cons]

theorem length_entries : i.entries.length = i.count := by
  rw [entries, List.length_append, List.length_cons, length_place]
  rfl

theorem toBytes_drop_tableOffset :
    i.toBytes.drop i.tableOffset = i.entries.flatMap Entry.toBytes := by
  apply List.drop_left'
  rw [List.length_append, List.length_append, length_header]
  rfl

theorem toBytes_drop_namesOffset :
    i.toBytes.drop i.namesOffset = i.names ++ i.entries.flatMap Entry.toBytes := by
  rw [toBytes, List.append_assoc]
  apply List.drop_left'
  rw [List.length_append, length_header]
  rfl

theorem toBytes_drop_headerSize : i.toBytes.drop headerSize =
    i.contents ++ (i.names ++ i.entries.flatMap Entry.toBytes) := by
  rw [toBytes, List.append_assoc, List.append_assoc]
  exact List.drop_left' i.length_header

theorem length_toBytes : i.toBytes.length = i.tableOffset + i.count * Entry.width := by
  have table : (i.entries.flatMap Entry.toBytes).length = i.count * Entry.width := by
    rw [List.length_flatMap, ← i.length_entries]
    simp [Entry.length_toBytes]
  rw [toBytes, List.length_append, table, List.length_append, List.length_append, length_header]
  rfl

theorem exists_toBytes_eq : ∃ rest, i.toView.toList.drop 0 = i.header ++ rest := by
  refine ⟨i.contents ++ (i.names ++ i.entries.flatMap Entry.toBytes), ?_⟩
  rw [List.drop_zero, toView, View.toList_ofList, toBytes, List.append_assoc, List.append_assoc]

theorem header_number (width offset n : Nat) (within : offset + width ≤ headerSize)
    (written : (i.header.drop offset).take width = LittleEndian.digits width n) :
    i.toView.number width offset = n % 256 ^ width := by
  obtain ⟨rest, h⟩ := i.exists_toBytes_eq
  rw [← i.length_header] at within
  have field := View.number_written h width offset n within written
  rw [Nat.zero_add] at field
  exact field

end

/-! ## The file header -/

/-- An image whose layout says what its parts are: they are added in one of the three ways, there are
no more of them than a 16-bit count can say beside the two that every image has, NUL is only the end
of a name, and names and image are as short as the fields for offsets into them need. -/
structure Buildable (i : Image) : Prop where
  added : ∀ p ∈ i.parts, p.Added
  count_le : i.parts.length ≤ 65533
  visible : ∀ p ∈ i.parts, '\x00' ∉ p.name.toList
  names_lt : i.names.length < 2 ^ 32
  bytes_lt : i.toBytes.length < 2 ^ 64

variable {i : Image}

theorem size_toView (i : Image) : i.toView.size = i.toBytes.length := List.size_toArray

theorem headerSize_le (i : Image) : 0x40 ≤ i.tableOffset := by
  have start : i.tableOffset = 0x40 + i.contents.length + i.names.length := rfl
  omega

theorem identified (i : Image) : Stored.Identified i.toView := by
  obtain ⟨rest, h⟩ := i.exists_toBytes_eq
  refine ⟨?_, ?_, ?_, ?_⟩
  · have start := i.headerSize_le
    rw [size_toView, length_toBytes]
    omega
  · rw [List.drop_zero, header_eq] at h
    rw [h]
    rfl
  · exact i.header_number 1 4 2 (by decide) (by rw [header_eq]; rfl)
  · exact i.header_number 1 5 1 (by decide) (by rw [header_eq]; rfl)

theorem number_machine (i : Image) : i.toView.number 2 0x12 = i.machine.toNat := by
  rw [i.header_number 2 0x12 i.machine.toNat (by decide) (by rw [header_eq]; rfl)]
  exact Nat.mod_eq_of_lt i.machine.toNat_lt

theorem entrySize_stored (i : Image) : Stored.entrySize i.toView = Entry.width :=
  i.header_number 2 0x3a Entry.width (by decide) (by rw [header_eq]; rfl)

section

variable (b : i.Buildable)

include b

theorem Buildable.tableOffset_stored : Stored.tableOffset i.toView = i.tableOffset := by
  have length := i.length_toBytes
  have short := b.bytes_lt
  rw [Stored.tableOffset, i.header_number 8 0x28 i.tableOffset (by decide) (by rw [header_eq]; rfl)]
  exact Nat.mod_eq_of_lt (by omega)

theorem Buildable.number_count : i.toView.number 2 0x3c = i.count := by
  have few := b.count_le
  have count : i.count = i.parts.length + 2 := rfl
  rw [i.header_number 2 0x3c i.count (by decide) (by rw [header_eq]; rfl)]
  exact Nat.mod_eq_of_lt (by omega)

theorem Buildable.number_namesIndex : i.toView.number 2 0x3e = i.parts.length + 1 := by
  have few := b.count_le
  rw [i.header_number 2 0x3e (i.parts.length + 1) (by decide) (by rw [header_eq]; rfl)]
  exact Nat.mod_eq_of_lt (by omega)

theorem Buildable.not_tableless : ¬Stored.Tableless i.toView := by
  rintro ⟨zero, -⟩
  have start := i.headerSize_le
  rw [b.tableOffset_stored] at zero
  omega

theorem Buildable.not_extendedCount : ¬Stored.ExtendedCount i.toView := by
  intro zero
  rw [Stored.ExtendedCount, b.number_count] at zero
  cases zero

theorem Buildable.not_extendedNames : ¬Stored.ExtendedNames i.toView := by
  intro greatest
  have few := b.count_le
  rw [Stored.ExtendedNames, b.number_namesIndex] at greatest
  omega

theorem Buildable.count_stored : Stored.count i.toView = i.count := by
  rw [Stored.count, if_neg b.not_tableless, if_neg b.not_extendedCount, b.number_count]

theorem Buildable.namesIndex_stored : Stored.namesIndex i.toView = i.parts.length + 1 := by
  rw [Stored.namesIndex, if_neg b.not_tableless, if_neg b.not_extendedNames, b.number_namesIndex]

theorem Buildable.located : Stored.Located i.toView := by
  refine ⟨i.identified, .inr ⟨?_, ?_, ?_, ?_, .inr ?_⟩⟩
  · rw [i.entrySize_stored]
    decide
  · exact fun extended => absurd extended b.not_extendedCount
  · exact fun extended => absurd extended b.not_extendedNames
  · apply Nat.le_of_eq
    rw [b.tableOffset_stored, b.count_stored, i.entrySize_stored, size_toView, length_toBytes]
  · rw [b.namesIndex_stored, b.count_stored]
    exact Nat.lt_succ_self _

end

/-! ## Where names and contents stand -/

/-- The entry of a part says what the part is, and where its name and its content are. -/
structure Placed (names bytes : List UInt8) (p : Part) (e : Entry) : Prop where
  kind_eq : e.kind = p.kind
  flags_eq : e.flags = p.flags
  size_eq : e.size = p.size
  name : p.nameBytes <+: names.drop e.nameOffset
  content : p.content <+: bytes.drop e.fileOffset
  within : e.fileOffset + p.content.length ≤ bytes.length

theorem prefix_drop_append {first second l : List UInt8} {n : Nat}
    (h : first ++ second <+: l.drop n) : second <+: l.drop (n + first.length) := by
  obtain ⟨rest, h⟩ := h
  refine ⟨rest, ?_⟩
  rw [← List.drop_drop, ← h, List.append_assoc, List.drop_left]

theorem place_placed {names bytes : List UInt8} {parts : List Part} {nameOffset fileOffset : Nat}
    (named : parts.flatMap Part.nameBytes <+: names.drop nameOffset)
    (filled : parts.flatMap Part.content <+: bytes.drop fileOffset)
    (within : fileOffset + (parts.flatMap Part.content).length ≤ bytes.length) :
    List.Forall₂ (Placed names bytes) parts (place nameOffset fileOffset parts) := by
  -- what is left of names and contents starts where the entries of the other parts say
  induction parts generalizing nameOffset fileOffset with
  | nil => exact .nil
  | cons p parts ih =>
    rw [List.flatMap_cons] at named filled within
    rw [List.length_append, ← Nat.add_assoc] at within
    have head : Placed names bytes p ⟨nameOffset, p.kind, p.flags, fileOffset, p.size⟩ := by
      refine ⟨rfl, rfl, rfl, ?_, ?_, ?_⟩
      · exact (List.prefix_append _ _).trans named
      · exact (List.prefix_append _ _).trans filled
      · exact Nat.le_trans (Nat.le_add_right _ _) within
    exact .cons head (ih (prefix_drop_append named) (prefix_drop_append filled) within)

/-- The null section. -/
def nullPart : Part := .ofContent "" 0 0 []

/-- The section that holds the names. -/
def namesPart (i : Image) : Part := .ofContent namesName strTab 0 i.names

/-- All sections of an image, those that are not asked for among them. -/
def allParts (i : Image) : List Part := nullPart :: i.parts ++ [i.namesPart]

theorem names_eq (i : Image) :
    i.names = 0 :: (i.parts.flatMap Part.nameBytes ++ i.namesPart.nameBytes) := by
  rw [names, partNames, List.append_assoc, List.cons_append]
  rfl

theorem entries_placed (i : Image) :
    List.Forall₂ (Placed i.names i.toBytes) i.allParts i.entries := by
  have length := i.length_toBytes
  have start : i.tableOffset = 0x40 + i.contents.length + i.names.length := rfl
  have null : Placed i.names i.toBytes nullPart Entry.null := by
    refine ⟨rfl, rfl, rfl, ?_, List.nil_prefix, Nat.zero_le _⟩
    rw [names_eq]
    exact ⟨_, rfl⟩
  have parts : List.Forall₂ (Placed i.names i.toBytes) i.parts (place 1 headerSize i.parts) := by
    apply place_placed
    · rw [names_eq]
      exact List.prefix_append _ _
    · rw [toBytes_drop_headerSize]
      exact List.prefix_append _ _
    · change 0x40 + i.contents.length ≤ _
      omega
  have last : Placed i.names i.toBytes i.namesPart
      ⟨i.partNames.length, strTab, 0, i.namesOffset, i.names.length⟩ := by
    refine ⟨rfl, rfl, rfl, ?_, ?_, ?_⟩
    · change _ <+: i.names.drop i.partNames.length
      rw [names, List.append_assoc, List.drop_left]
      exact List.prefix_refl _
    · change _ <+: i.toBytes.drop i.namesOffset
      rw [toBytes_drop_namesOffset]
      exact List.prefix_append _ _
    · change i.tableOffset ≤ _
      omega
  rw [allParts, entries, List.cons_append, List.cons_append]
  exact .cons null (List.rel_append parts (.cons last .nil))

/-! ## What is stored of a part -/

/-- Entry `index` of an image has the fields that an entry says. -/
structure Stores (v : View) (index : Nat) (e : Entry) : Prop where
  nameOffset_eq : Stored.nameOffset v index = e.nameOffset
  kind_eq : Stored.kind v index = e.kind.toNat
  flags_eq : Stored.flags v index = e.flags.toNat
  fileOffset_eq : Stored.fileOffset v index = e.fileOffset
  size_eq : Stored.size v index = e.size

theorem Buildable.stores (b : i.Buildable) {index : Nat} {e : Entry}
    (here : i.entries[index]? = some e) (name : e.nameOffset < 2 ^ 32)
    (place : e.fileOffset < 2 ^ 64) (size : e.size < 2 ^ 64) : Stores i.toView index e := by
  obtain ⟨lt, rfl⟩ := List.getElem?_eq_some_iff.1 here
  obtain ⟨rest, cut⟩ := Entry.drop_flatMap lt
  have base : Stored.entryOffset i.toView index = i.tableOffset + index * Entry.width := by
    rw [Stored.entryOffset, b.tableOffset_stored, i.entrySize_stored]
  have at_ : i.toView.toList.drop (Stored.entryOffset i.toView index) =
      i.entries[index].toBytes ++ rest := by
    rw [base, ← List.drop_drop, ← cut, ← toBytes_drop_tableOffset]
    rfl
  refine ⟨?_, Entry.number_kind at_, Entry.number_flags at_, ?_, ?_⟩
  · exact (Entry.number_nameOffset at_).trans (Nat.mod_eq_of_lt name)
  · exact (Entry.number_fileOffset at_).trans (Nat.mod_eq_of_lt place)
  · exact (Entry.number_size at_).trans (Nat.mod_eq_of_lt size)

theorem Placed.nameOffset_lt {names bytes : List UInt8} {p : Part} {e : Entry}
    (placed : Placed names bytes p e) : e.nameOffset < names.length := by
  have length := placed.name.length_le
  rw [List.length_drop, Part.nameBytes, List.length_append, List.length_singleton] at length
  omega

theorem Buildable.added_of_mem (b : i.Buildable) {p : Part} (mem : p ∈ i.allParts) : p.Added := by
  rw [allParts, List.mem_append, List.mem_cons, List.mem_singleton] at mem
  rcases mem with (rfl | mem) | rfl
  · exact .ofContent _ _ _ _
  · exact b.added p mem
  · exact .ofContent _ _ _ _

theorem Buildable.visible_of_mem (b : i.Buildable) {p : Part} (mem : p ∈ i.allParts) :
    '\x00' ∉ p.name.toList := by
  rw [allParts, List.mem_append, List.mem_cons, List.mem_singleton] at mem
  rcases mem with (rfl | mem) | rfl
  · exact List.not_mem_nil
  · exact b.visible p mem
  · change '\x00' ∉ namesName.toList
    decide

/-- Where a part is in the image, and what is stored of it there. -/
def Lays (i : Image) (index : Nat) (p : Part) : Prop :=
  ∃ e, Stores i.toView index e ∧ Placed i.names i.toBytes p e

theorem Buildable.lays (b : i.Buildable) :
    List.Forall₂ (fun index p => i.Lays index p) (List.range i.count) i.allParts := by
  have length := i.entries_placed.length_eq
  rw [length_entries] at length
  rw [List.forall₂_iff_get]
  refine ⟨by rw [List.length_range, length], fun index lt lt' => ?_⟩
  have within : index < i.entries.length := by
    rwa [length_entries, ← length]
  have placed : Placed i.names i.toBytes i.allParts[index] i.entries[index] :=
    i.entries_placed.get lt' within
  have bounds := placed.within
  have name := placed.nameOffset_lt
  have short := b.bytes_lt
  have names := b.names_lt
  have added := b.added_of_mem (List.getElem_mem lt')
  have size := added.size_lt (by omega)
  rw [List.get_eq_getElem, List.getElem_range]
  refine ⟨i.entries[index], b.stores (List.getElem?_eq_getElem within) ?_ ?_ ?_, placed⟩
  · omega
  · omega
  · rw [placed.size_eq]
    exact size

end Image

end Elf

end CodeSpans
