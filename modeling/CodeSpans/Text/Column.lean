/-!
# Columns

Text brought to a least width with blanks. Width is counted in characters, and
longer text is left as it is.
-/

namespace CodeSpans.Column

/-- Blanks in front, so that the text stands at the right edge. -/
def right (width : Nat) (text : String) : String :=
  String.ofList (text.toList.leftpad width ' ')

/-- Blanks behind, so that the text stands at the left edge. -/
def left (width : Nat) (text : String) : String :=
  String.ofList (text.toList.rightpad width ' ')

@[simp] theorem toList_right (width : Nat) (text : String) :
    (right width text).toList = text.toList.leftpad width ' ' :=
  String.toList_ofList

@[simp] theorem toList_left (width : Nat) (text : String) :
    (left width text).toList = text.toList.rightpad width ' ' :=
  String.toList_ofList

end CodeSpans.Column
