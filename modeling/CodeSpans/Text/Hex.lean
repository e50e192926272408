/-!
# Hexadecimal text

Numbers and bytes in lower-case hexadecimal, as the messages and the reports
write them.
-/

namespace CodeSpans.Hex

/-- The digits of a number, with no leading zero. -/
def digits (n : Nat) : String :=
  String.ofList (Nat.toDigits 16 n)

/-- The digits of a number, filled up with zeros to at least `width`. -/
def padded (width n : Nat) : String :=
  String.ofList ((Nat.toDigits 16 n).leftpad width '0')

/-- A number behind `0x`, with no leading zero. -/
def literal (n : Nat) : String :=
  "0x" ++ digits n

def pair (b : UInt8) : List Char :=
  [Nat.digitChar (b.toNat / 16), Nat.digitChar (b.toNat % 16)]

/-- A byte as two digits. -/
def byte (b : UInt8) : String :=
  String.ofList (pair b)

/-- A byte as two digits behind `0x`. -/
def byteLiteral (b : UInt8) : String :=
  "0x" ++ byte b

/-- Bytes as two digits each, a blank between neighbours. -/
def spaced (bytes : List UInt8) : String :=
  " ".intercalate (bytes.map byte)

theorem length_pair (b : UInt8) : (pair b).length = 2 := rfl

@[simp] theorem toList_byte (b : UInt8) : (byte b).toList = pair b :=
  String.toList_ofList

end CodeSpans.Hex
