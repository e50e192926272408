import CodeSpans.Proofs.Sweep.Tiling
import Mathlib.Algebra.Order.BigOperators.Group.List
import Mathlib.Algebra.Order.Ring.Nat

/-!
# What a report shows of a section

A reader of a report sees a block for each section: the rows of its instructions, each with an
offset, a length and bytes, and the offset of the stop if one is reported. A block accounts for some
bytes (`Block.Accounts`) when its rows, one behind the other, show each of them once, up to the stop.
The block of a section that was swept from an image accounts for the section's bytes
(`Walk.accounts`). Reports that are no tree show blocks as a sequence of entries, from
which they are gathered (`gather_ofSweep`).
-/

namespace CodeSpans

open X86

namespace Report

/-- What is shown of an instruction. -/
structure Row where
  offset : Nat
  length : Nat
  bytes : List UInt8
deriving DecidableEq, Repr

/-- What is shown of a section. -/
structure Block where
  rows : List Row
  /-- The offset of the stop, if one is shown. -/
  stop : Option Nat
deriving DecidableEq, Repr

/-- The rows lie end to end from the first byte on, in order, and show the bytes up to the stop, or
all of them. -/
structure Block.Accounts (b : Block) (bytes : List UInt8) : Prop where
  ordered : b.rows.Pairwise fun row later => row.offset < later.offset
  offsets : ∀ before row behind, b.rows = before ++ row :: behind →
    row.offset = (before.map Row.length).sum
  lengths : ∀ row ∈ b.rows, row.length = row.bytes.length
  shows : b.rows.flatMap Row.bytes = bytes.take (b.stop.getD bytes.length)
  stops : ∀ offset ∈ b.stop, offset < bytes.length
  empty : bytes = [] → b.rows = []

/-- The row of an instruction. -/
def Row.ofSpan (s : SectionSweep) (span : Span) : Row :=
  ⟨span.start, span.length.toNat, s.bytesOf span⟩

/-- The block of a section that was swept. -/
def Block.ofSweep (s : SectionSweep) : Block :=
  ⟨s.spans.map (Row.ofSpan s), s.stop.map (·.offset)⟩

/-! ## Sequences of entries -/

/-- An entry of a report: a section begins, or an instruction or a stop is shown. -/
inductive Entry where
  | begins
  | row (row : Row)
  | stop (offset : Nat)
deriving DecidableEq, Repr

/-- The entries of a section that was swept. -/
def Entry.ofSweep (s : SectionSweep) : List Entry :=
  .begins :: (s.spans.map fun span => .row (.ofSpan s span))
    ++ s.stop.toList.map fun stop => .stop stop.offset

/-- The entries that items show, one item behind the other. -/
def entries? {α : Type} (shown? : α → Option (List Entry)) : List α → Option (List Entry)
  | [] => some []
  | item :: items => do return (← shown? item) ++ (← entries? shown? items)

/-- The block that entries are in the middle of, and those that begin behind them. In its block a
stop must be the last entry. -/
def gather : List Entry → Option (Block × List Block)
  | [] => some (⟨[], none⟩, [])
  | entry :: rest => do
    let (block, blocks) ← gather rest
    match entry with
    | .begins => return (⟨[], none⟩, block :: blocks)
    | .row row => return (⟨row :: block.rows, block.stop⟩, blocks)
    | .stop offset => if block = ⟨[], none⟩ then return (⟨[], some offset⟩, blocks) else none

/-- The blocks of some entries. The first entry must begin a section. -/
def blocks? (entries : List Entry) : Option (List Block) := do
  let (block, blocks) ← gather entries
  if block = ⟨[], none⟩ then return blocks else none

theorem gather_rows (rows : List Row) {rest : List Entry} {block : Block} {blocks : List Block}
    (behind : gather rest = some (block, blocks)) :
    gather (rows.map .row ++ rest) = some (⟨rows ++ block.rows, block.stop⟩, blocks) := by
  induction rows with
  | nil => exact behind
  | cons row rows ih =>
    rw [List.map_cons, List.cons_append, gather, ih]
    rfl

theorem gather_ofSweep {rest : List Entry} {blocks : List Block} (s : SectionSweep)
    (behind : gather rest = some (⟨[], none⟩, blocks)) :
    gather (Entry.ofSweep s ++ rest) = some (⟨[], none⟩, Block.ofSweep s :: blocks) := by
  have stopped : gather (s.stop.toList.map (fun stop => Entry.stop stop.offset) ++ rest) =
      some (⟨[], s.stop.map (·.offset)⟩, blocks) := by
    cases s.stop with
    | none => exact behind
    | some stop =>
      rw [Option.toList_some, List.map_cons, List.map_nil, List.singleton_append, gather, behind]
      rfl
  have rows := gather_rows (s.spans.map (Row.ofSpan s)) stopped
  rw [List.map_map] at rows
  unfold Entry.ofSweep
  rw [List.cons_append, List.cons_append, List.append_assoc, gather]
  change (do let (block, blocks) ← gather (s.spans.map (Entry.row ∘ Row.ofSpan s) ++ _); _) = _
  rw [rows, List.append_nil]
  rfl

/-- The entries of sections that were swept are gathered into their blocks. -/
theorem blocks?_flatMap (sections : List SectionSweep) :
    blocks? (sections.flatMap Entry.ofSweep) = some (sections.map Block.ofSweep) := by
  have gathered : gather (sections.flatMap Entry.ofSweep) =
      some (⟨[], none⟩, sections.map Block.ofSweep) := by
    induction sections with
    | nil => rfl
    | cons s sections ih =>
      rw [List.flatMap_cons, gather_ofSweep s ih]
      rfl
  unfold blocks?
  rw [gathered]
  rfl

section

variable {α : Type} {shown? : α → Option (List Entry)}

theorem entries?_map {β : Type} {item : β → α} {entries : β → List Entry} {parts : List β}
    (each : ∀ part ∈ parts, shown? (item part) = some (entries part)) :
    entries? shown? (parts.map item) = some (parts.flatMap entries) := by
  induction parts with
  | nil => rfl
  | cons part parts ih =>
    have rest := ih fun part' mem => each part' (List.mem_cons_of_mem _ mem)
    rw [List.map_cons, entries?, each part List.mem_cons_self, rest]
    rfl

theorem entries?_append {items items' : List α} {entries entries' : List Entry}
    (here : entries? shown? items = some entries) (rest : entries? shown? items' = some entries') :
    entries? shown? (items ++ items') = some (entries ++ entries') := by
  induction items generalizing entries with
  | nil =>
    cases here
    exact rest
  | cons item items ih =>
    rw [entries?, Option.bind_eq_bind, Option.bind_eq_some_iff] at here
    obtain ⟨first, shown, here⟩ := here
    obtain ⟨others, read, same⟩ := Option.bind_eq_some_iff.1 here
    cases same
    rw [List.cons_append, entries?, shown, ih read]
    simp

/-- Where a section begins with some items, and then each instruction and the stop have an item, the
items show the section's entries. -/
theorem entries?_ofSweep {s : SectionSweep} {front : List α} {row : Span → α} {stop : Stop → α}
    (begins : entries? shown? front = some [.begins])
    (rows : ∀ span ∈ s.spans, shown? (row span) = some [.row (.ofSpan s span)])
    (stops : ∀ place, shown? (stop place) = some [.stop place.offset]) :
    entries? shown? (front ++ s.spans.map row ++ s.stop.toList.map stop) =
      some (Entry.ofSweep s) := by
  have behind : entries? shown? (s.stop.toList.map stop) =
      some (s.stop.toList.flatMap fun place => [.stop place.offset]) :=
    entries?_map fun place _ => stops place
  have all := entries?_append (entries?_append begins (entries?_map rows)) behind
  rwa [← List.map_eq_flatMap, ← List.map_eq_flatMap] at all

/-- Where the items of each section show its entries, all items show the sections' blocks. -/
theorem blocks?_of_items {items : SectionSweep → List α} {sections : List SectionSweep}
    (each : ∀ s ∈ sections, entries? shown? (items s) = some (Entry.ofSweep s)) :
    (entries? shown? (sections.flatMap items)).bind blocks? =
      some (sections.map Block.ofSweep) := by
  have all : entries? shown? (sections.flatMap items) = some (sections.flatMap Entry.ofSweep) := by
    induction sections with
    | nil => rfl
    | cons s sections ih =>
      have rest := ih fun s' mem => each s' (List.mem_cons_of_mem _ mem)
      rw [List.flatMap_cons, List.flatMap_cons]
      exact entries?_append (each s List.mem_cons_self) rest
  rw [all, Option.bind_some, blocks?_flatMap]

end

end Report

/-! ## Blocks account for the bytes that were swept -/

theorem extent_eq_sum (spans : List Span) :
    extent spans = (spans.map fun span => span.length.toNat).sum := by
  induction spans with
  | nil => rfl
  | cons span spans ih => rw [extent_cons, ih, List.map_cons, List.sum_cons]

theorem X86.Span.bytesIn_eq (span : Span) (code : View) :
    span.bytesIn code = (code.toList.drop span.start).take span.length.toNat := by
  unfold Span.bytesIn View.toList Span.next
  rw [Array.toList_extract, List.extract_eq_take_drop, Nat.add_sub_cancel_left]

section

variable {code : View} {offset : Nat} {spans : List Span} {stop : Option Stop}

/-- What a walk finds shows the bytes from its start on. -/
theorem Walk.flatMap_bytesIn (w : Walk decode code offset spans stop) :
    spans.flatMap (·.bytesIn code) = (code.toList.drop offset).take (extent spans) := by
  induction w with
  | done _ | rejected _ _ | stuck _ _ _ => rfl
  | @step offset span spans _ _ answer _ _ ih =>
    obtain ⟨start, -⟩ := decode_bounds answer
    rw [List.flatMap_cons, ih, span.bytesIn_eq, start, extent_cons, List.take_add, List.drop_drop]

theorem Walk.starts_increase (w : Walk decode code offset spans stop) :
    spans.Pairwise fun span later => span.start < later.start := by
  induction w with
  | done _ | rejected _ _ | stuck _ _ _ => exact .nil
  | @step offset span spans _ _ answer _ rest ih =>
    obtain ⟨start, some, -⟩ := decode_bounds answer
    refine List.pairwise_cons.2 ⟨fun later mem => ?_, ih⟩
    obtain ⟨before, behind, rfl⟩ := List.append_of_mem mem
    obtain ⟨place, -⟩ := rest.answer_of_append decode_exact
    omega

/-- A walk from the first byte ends at its stop, or else at the end of the code. -/
theorem Walk.extent_eq_getD (w : Walk decode code 0 spans stop) :
    extent spans = (stop.map Stop.offset).getD code.size := by
  cases stop with
  | none =>
    have whole := w.extent_eq decode_exact (Nat.zero_le _)
    rwa [Nat.zero_add] at whole
  | some stop =>
    have place := (w.stop_eq decode_exact).1
    rw [Nat.zero_add] at place
    exact place.symm

end

theorem Walk.accounts {s : SectionSweep} (w : Walk decode s.code 0 s.spans s.stop) :
    (Report.Block.ofSweep s).Accounts s.code.toList where
  ordered := List.pairwise_map.2 w.starts_increase
  offsets before row behind parts := by
    obtain ⟨spans, others, same, rfl, rest⟩ := List.map_eq_append_iff.1 parts
    obtain ⟨span, behind', rfl, rfl, -⟩ := List.map_eq_cons_iff.1 rest
    rw [same] at w
    have place := (w.answer_of_append decode_exact).1
    rw [Nat.zero_add, extent_eq_sum] at place
    rw [List.map_map]
    exact place
  lengths row mem := by
    obtain ⟨span, found, rfl⟩ := List.mem_map.1 mem
    have within := (decode_bounds (w.answer_of_mem decode_exact found)).2.2.2
    have next_eq : span.next = span.start + span.length.toNat := rfl
    change span.length.toNat = (span.bytesIn s.code).length
    rw [span.bytesIn_eq, List.length_take, List.length_drop, View.length_toList]
    omega
  shows := by
    have shown := w.flatMap_bytesIn
    rw [List.drop_zero, w.extent_eq_getD, ← View.length_toList] at shown
    exact Eq.trans (List.flatMap_map _ _ _) shown
  stops offset isStop := by
    obtain ⟨stop, stopped, rfl⟩ := Option.map_eq_some_iff.1 isStop
    rw [stopped] at w
    rw [View.length_toList]
    exact (w.stop_eq decode_exact).2.1
  empty none := by
    change s.spans.map _ = []
    cases found : s.spans with
    | nil => rfl
    | cons span spans =>
      rw [found] at w
      have some := w.step_inv.1
      rw [← View.length_toList, none] at some
      cases some

end CodeSpans
