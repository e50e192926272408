/-!
# Letter case in names

The names that formats and strategies are chosen by are spelled with ASCII
letters other than `k`. No character outside ASCII has one of these letters as
its lower case (only the Kelvin sign has an ASCII letter, which is `k`), so it
is enough to fold ASCII.
-/

namespace CodeSpans.Case

/-- The text with its ASCII letters in lower case. -/
def fold (text : String) : String :=
  text.map Char.toLower

end CodeSpans.Case
