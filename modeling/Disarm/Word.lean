/-!
Instruction words, addresses and their bit fields. Both have 32 bits and wrap; sizes and file
offsets elsewhere in the library are natural numbers and do not.
-/

namespace Disarm

abbrev Word := BitVec 32

/-- A machine address; sums and differences wrap. -/
abbrev Addr := BitVec 32

def wordSize : Nat := 4

namespace Word

abbrev bit (w : Word) (i : Nat) : Bool := w.getLsbD i

abbrev field (w : Word) (low len : Nat) : BitVec len := w.extractLsb' low len

/-- The word whose bytes are given in memory order, the least significant one first. -/
def ofBytes (b₀ b₁ b₂ b₃ : UInt8) : Word :=
  b₃.toBitVec ++ b₂.toBitVec ++ b₁.toBitVec ++ b₀.toBitVec

/-- The words whose top four bits are ones; they have no condition field. -/
def Unconditional (w : Word) : Prop := w.field 28 4 = 15

instance (w : Word) : Decidable w.Unconditional := inferInstanceAs (Decidable (_ = _))

end Word

/-- An address at which a word may stand: a multiple of four. -/
def Addr.Aligned (a : Addr) : Prop := a.extractLsb' 0 2 = 0

instance (a : Addr) : Decidable a.Aligned := inferInstanceAs (Decidable (_ = _))

end Disarm
