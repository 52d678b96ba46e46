import Disarm.Instruction.Table
import Disarm.Instruction.Operand
/-!
Decoded instructions and their lines. A line is the name of an entry with what is glued to it, a tab,
the operands with a comma and a blank between them, and a line end. It is handed over piece by piece.
-/

namespace Disarm

namespace Suffix

/-- The directions of a block transfer, by bits 24 and 23. -/
def blockModes : Vector String 4 := #v["da", "ia", "db", "ib"]

/-- The stacks a block transfer serves, by bits 20, 24 and 23. -/
def stackModes : Vector String 8 := #v["ed", "ea", "fd", "fa", "fa", "fd", "ea", "ed"]

/-- The floating-point precisions: single, double, extended, packed. -/
def precisions : Vector String 4 := #v["s", "d", "e", "p"]

/-- The floating-point roundings: to nearest, up, down, to zero. -/
def roundings : Vector String 4 := #v["", "p", "m", "z"]

def pair (high low : Bool) : BitVec 2 := BitVec.ofBool high ++ BitVec.ofBool low

def text (w : Word) : Suffix → String
  | .setFlags => if w.bit 20 then "s" else ""
  | .comparePc => if w.field 12 4 = Register.pc then "p" else ""
  | .long => if w.bit 22 then "l" else ""
  | .blockMode => blockModes.get (w.field 23 2).toFin
  | .stackMode => stackModes.get (BitVec.ofBool (w.bit 20) ++ w.field 23 2).toFin
  | .precision => precisions.get (pair (w.bit 19) (w.bit 7)).toFin
  | .transferPrecision => precisions.get (pair (w.bit 22) (w.bit 15)).toFin
  | .rounding => roundings.get (w.field 5 2).toFin

/-- A mark is one piece if it is set. The other suffixes always are, also where they are empty. -/
def pieces (w : Word) : Suffix → List Piece
  | s@.setFlags | s@.comparePc | s@.long => if s.text w = "" then [] else [.text (s.text w)]
  | s => [.text (s.text w)]

end Suffix

namespace Entry

/-- The condition suffix a word adds. Unconditional and undefined entries take none. -/
def condition (e : Entry) (w : Word) : String :=
  if e.Unconditional ∨ e.Undefined then "" else Condition.suffix (w.field 28 4)

def opening (e : Entry) (w : Word) : List Piece :=
  .text e.name :: ((if e.Unconditional ∨ e.Undefined then [] else [.text (e.condition w)]) ++
    e.suffixes.flatMap (Suffix.pieces w))

end Entry

/-- A word with its address and the entry it belongs to. -/
structure Instruction where
  location : Addr
  word : Word
  entry : Entry

namespace Instruction

def decode (loc : Addr) (w : Word) : Instruction := ⟨loc, w, Entry.ofWord w⟩

/-- The line before its end. A raw line starts with the eight digits of the word and a tab. -/
def body (i : Instruction) (raw : Bool) : List Piece :=
  (if raw then [.text (Hex.padded 8 i.word.toNat ++ "\t")] else []) ++
    (i.entry.opening i.word ++ Slot.listed i.location i.word "\t" i.entry.slots)

def pieces (i : Instruction) (raw : Bool) : List Piece := i.body raw ++ [.text "\n"]

end Instruction

end Disarm
