/-!
# Comma-separated text

A record is a list of fields on a line of its own. A field is put between
quotes exactly when it holds a comma, a quote or a line-ending character, and a
quote inside is then written twice.
-/

namespace CodeSpans.Csv

/-- Whether a character forces its field between quotes. -/
def isSpecial (c : Char) : Bool :=
  c == ',' || c == '"' || c == '\r' || c == '\n'

/-- A character as it stands between quotes. -/
def escape (c : Char) : List Char :=
  if c = '"' then ['"', '"'] else [c]

/-- A field as it stands in its record. -/
def field (s : String) : String :=
  if s.toList.any isSpecial then
    String.ofList ('"' :: s.toList.flatMap escape ++ ['"'])
  else s

/-- A record with its line end. -/
def line (fields : List String) : String :=
  ",".intercalate (fields.map field) ++ "\n"

end CodeSpans.Csv
