import CodeSpans.Journal

/-!
# Requests

A request asks for the disassembly of an image: of all executable sections, or
of chosen ones in a given order, which need not be executable. Its answer is
the disassembly or an error, and the journal of what happened.
-/

namespace CodeSpans

open X86 Elf

/-- A section that is asked for. -/
inductive Choice where
  /-- By its place in the table. -/
  | place (index : Nat)
  /-- The first of a name. -/
  | called (name : String)
  /-- By its description, which need not be in the table. -/
  | described (s : Section)
deriving Repr, Inhabited

/-- The section of a choice. -/
def Elf.SectionTable.choose (t : SectionTable) : Choice → Except Elf.Error Section
  | .place index =>
    match t.sections[index]? with
    | some s => .ok s
    | none => .error (.noSuchSection (toString index))
  | .called name => t.find name
  | .described s => .ok s

structure Request where
  image : View
  strategy : Strategy := .standard
  /-- The sections, all executable ones if not given. -/
  choices : Option (List Choice) := none
deriving Repr, Inhabited

/-- Why a request has no disassembly. -/
inductive Request.Error where
  /-- The image is not indexed, or a chosen section not found. -/
  | sections (error : Elf.Error)
  | walk (error : Elf.Error)
deriving DecidableEq, Repr, Inhabited

structure Answer where
  /-- The disassembly, or why there is none. -/
  result : Except Request.Error Disassembly
  /-- What happened; the text is what is said about the time taken. -/
  journal : (elapsed : String) → List Journal.Event

namespace Request

/-- The sections that a request asks for. -/
def sections (r : Request) (t : SectionTable) : Except Elf.Error (List Section) :=
  match r.choices with
  | none => .ok t.executable
  | some choices => choices.mapM t.choose

def answer (r : Request) : Answer :=
  let opening := Journal.ofImage r.image
  let found : Except Elf.Error (SectionTable × List Section) := do
    let t ← SectionTable.ofImage r.image
    return (t, ← r.sections t)
  match found with
  | .error e => ⟨.error (.sections e), fun _ => opening⟩
  | .ok (t, sections) =>
    let result := r.strategy.run t decode sections
    ⟨result.mapError .walk, fun elapsed =>
      opening ++ Journal.ofWalk r.strategy elapsed t decode sections result⟩

end Request

end CodeSpans
