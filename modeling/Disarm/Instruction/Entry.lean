import Disarm.Word
import Disarm.Instruction.Format
/-!
Entries of the instruction table. An entry matches the words that have its pattern under its mask
and lie on its side of the unconditional space.
-/

namespace Disarm

/-- One row of the instruction table. -/
structure Entry where
  mask : Word
  pattern : Word
  name : String
  suffixes : List Suffix
  slots : List Slot
deriving DecidableEq, Repr

namespace Entry

/-- Entries of the unconditional space; a condition suffix is never printed for them. -/
abbrev Unconditional (e : Entry) : Prop := e.pattern.Unconditional

/-- Entries for words that encode no instruction. -/
def Undefined (e : Entry) : Prop := e.name = "und"

instance (e : Entry) : Decidable e.Undefined := inferInstanceAs (Decidable (_ = _))

/-- A word matches if the masked bits agree and word and entry are on the same side of the
unconditional space. -/
def Matches (e : Entry) (w : Word) : Prop :=
  w &&& e.mask = e.pattern ∧ (e.Unconditional ↔ w.Unconditional)

instance (e : Entry) (w : Word) : Decidable (e.Matches w) := inferInstanceAs (Decidable (_ ∧ _))

/-- The compact spelling of the entry's format. -/
def format (e : Entry) : String :=
  String.join (e.suffixes.map Suffix.code) ++ String.join (e.slots.map Slot.code)

def fallback : Entry := ⟨0, 0, "und", [], [.word]⟩

end Entry

end Disarm
