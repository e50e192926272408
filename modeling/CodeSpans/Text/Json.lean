/-!
# JSON text

A JSON value is a tree (`Json`), and `Json.render` is its only printer. The two
ways of laying a value out differ in what stands between the tokens
(`Json.Style`): `compact` has nothing there, `pretty` starts a line for every
item and indents it by two blanks a level.
-/

namespace CodeSpans

/-- A JSON value with numbers from the naturals. -/
inductive Json where
  | flag (value : Bool)
  | number (value : Nat)
  | text (value : String)
  | array (items : List Json)
  /-- An object; its members keep their order. -/
  | object (members : List (String × Json))
deriving Inhabited

namespace Json

/-- What stands between the tokens of a value. -/
structure Style where
  /-- Between a bracket or comma and what follows, at a depth. -/
  gap : Nat → String
  /-- Between the key and the value of a member. -/
  colon : String

/-- Everything on one line, no blanks. -/
def compact : Style where
  gap _ := ""
  colon := ":"

/-- Each item on a line of its own, two blanks a level. -/
def pretty : Style where
  gap depth := String.ofList ('\n' :: List.replicate (2 * depth) ' ')
  colon := ": "

/-- A character as it stands in a string. Quotes, backslashes and control characters are
written as escapes, all others as they are. -/
def escape (c : Char) : List Char :=
  if c = '"' then ['\\', '"']
  else if c = '\\' then ['\\', '\\']
  else if c = '\x08' then ['\\', 'b']
  else if c = '\x0c' then ['\\', 'f']
  else if c = '\n' then ['\\', 'n']
  else if c = '\r' then ['\\', 'r']
  else if c = '\t' then ['\\', 't']
  else if c.toNat < 0x20 then
    ['\\', 'u', '0', '0', Nat.digitChar (c.toNat / 16), Nat.digitChar (c.toNat % 16)]
  else [c]

/-- A string between quotes. -/
def quote (s : String) : String :=
  String.ofList ('"' :: s.toList.flatMap escape ++ ['"'])

/-- Items between brackets, with a comma between neighbours; nothing stands in empty brackets. -/
def enclose (style : Style) (depth : Nat) (opening closing : String) (items : List String) :
    String :=
  match items with
  | [] => opening ++ closing
  | items =>
    opening ++ style.gap (depth + 1) ++ ("," ++ style.gap (depth + 1)).intercalate items
      ++ style.gap depth ++ closing

/-- The text of a value that stands at a depth. -/
def render (style : Style) (depth : Nat) : Json → String
  | .flag value => if value then "true" else "false"
  | .number value => toString value
  | .text value => quote value
  | .array items =>
    enclose style depth "[" "]" (items.map fun item => item.render style (depth + 1))
  | .object members =>
    enclose style depth "\x7b" "\x7d" (members.map fun member =>
      quote member.1 ++ style.colon ++ member.2.render style (depth + 1))
termination_by value => sizeOf value
decreasing_by
  · rename_i inside
    have smaller := List.sizeOf_lt_of_mem inside
    simp only [array.sizeOf_spec]
    omega
  · rename_i inside
    have smaller := List.sizeOf_lt_of_mem inside
    obtain ⟨key, value⟩ := member
    simp only [object.sizeOf_spec, Prod.mk.sizeOf_spec] at *
    omega

end Json

end CodeSpans
