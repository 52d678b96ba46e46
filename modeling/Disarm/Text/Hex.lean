/-!
Hexadecimal text in lower case: shortest, padded with zeros, and aligned in a column.
-/

namespace Disarm.Hex

def digits (n : Nat) : List Char := Nat.toDigits 16 n

def text (n : Nat) : String := String.ofList (digits n)

/-- The text with zeros in front up to a width; a longer number keeps all its digits. -/
def padded (width n : Nat) : String := String.ofList ((digits n).leftpad width '0')

/-- The text with blanks in front up to a width. -/
def aligned (width n : Nat) : String := String.ofList ((digits n).leftpad width ' ')

/-- The marked form of words and addresses: `0x` and at least eight digits. -/
def marked (n : Nat) : String := "0x" ++ padded 8 n

end Disarm.Hex
