import CodeSpans.Elf.Error

/-!
# Failures of a whole run

A run fails because its file cannot be read or because what the file says
cannot be used. A failure has a text and a chain of causes behind it, of which
each repeats what the text before it already says last.
-/

namespace CodeSpans

/-- Why a file cannot be read. -/
inductive FileFault where
  | notFound
  | isDirectory
  /-- The path leads through a file. -/
  | notDirectory
  | notPermitted
  /-- The system's text for anything else. -/
  | other (text : String)
deriving DecidableEq, Repr, Inhabited

/-- The system's text for a fault. -/
def FileFault.message : FileFault → String
  | .notFound => "No such file or directory (os error 2)"
  | .isDirectory => "Is a directory (os error 21)"
  | .notDirectory => "Not a directory (os error 20)"
  | .notPermitted => "Permission denied (os error 13)"
  | .other text => text

/-- Why a run fails. -/
inductive Failure where
  /-- The sections of the image cannot be used. -/
  | malformed (error : Elf.Error)
  | unreadable (fault : FileFault)
deriving DecidableEq, Repr, Inhabited

namespace Failure

def message : Failure → String
  | .malformed error => s!"Malformed ELF64 file: {error.message}"
  | .unreadable fault => s!"I/O error: {fault.message}"

/-- The texts of what a failure comes from, nearest first. -/
def causes : Failure → List String
  | .malformed error => error.message :: error.causes
  | .unreadable fault => [fault.message]

end Failure

end CodeSpans
