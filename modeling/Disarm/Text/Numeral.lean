/-!
Numerals of a given radix. Digits are read from the left, and the first thing that is wrong decides:
a sign that is no digit, or a value that no longer fits.
-/

namespace Disarm

inductive NumeralError where
  | empty
  | invalidDigit
  | tooLarge
deriving DecidableEq, Repr

def NumeralError.message : NumeralError → String
  | .empty => "cannot parse integer from empty string"
  | .invalidDigit => "invalid digit found in string"
  | .tooLarge => "number too large to fit in target type"

namespace Numeral

def digit? (radix : Nat) (c : Char) : Option Nat :=
  let d :=
    if '0' ≤ c ∧ c ≤ '9' then some (c.toNat - '0'.toNat)
    else if 'a' ≤ c ∧ c ≤ 'z' then some (c.toNat - 'a'.toNat + 10)
    else if 'A' ≤ c ∧ c ≤ 'Z' then some (c.toNat - 'A'.toNat + 10)
    else none
  d.filter (· < radix)

/-- Reads digits after those that make the value `n`. -/
def digits (radix bound : Nat) (n : Nat) : List Char → Except NumeralError Nat
  | [] => .ok n
  | c :: l =>
    match digit? radix c with
    | none => .error .invalidDigit
    | some d =>
      if radix * n + d < bound then digits radix bound (radix * n + d) l else .error .tooLarge

/-- Reads a numeral below a bound: one or more digits, perhaps after a plus sign. -/
def read (radix bound : Nat) : List Char → Except NumeralError Nat
  | [] => .error .empty
  | '+' :: [] => .error .invalidDigit
  | '+' :: l => digits radix bound 0 l
  | l => digits radix bound 0 l

/-- Reads an address: a hexadecimal numeral of at most 32 bits, perhaps after one `0x`. -/
def address (s : String) : Except NumeralError (BitVec 32) :=
  let l := match s.toList with
    | '0' :: 'x' :: l => l
    | l => l
  return BitVec.ofNat 32 (← read 16 0x100000000 l)

/-- Reads a count: a decimal numeral of at most 64 bits. -/
def count (s : String) : Except NumeralError Nat := read 10 0x10000000000000000 s.toList

end Numeral

end Disarm
