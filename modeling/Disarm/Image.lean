import Disarm.Fault
import Disarm.Bytes
/-!
Memory images: bytes mapped from a base address on. The end of an image is a natural number, for an
image may reach the top of the address space and even pass it.
-/

namespace Disarm

/-- Bytes mapped at a base address. -/
structure Image where
  base : Addr
  data : ByteArray

namespace Image

/-- One past the last mapped address, not wrapped. -/
def stop (i : Image) : Nat := i.base.toNat + i.data.size

/-- The whole word at an address lies in the image. -/
def HasWord (i : Image) (a : Addr) : Prop := i.base ≤ a ∧ a.toNat + wordSize ≤ i.stop

instance (i : Image) (a : Addr) : Decidable (i.HasWord a) := inferInstanceAs (Decidable (_ ∧ _))

def word? (i : Image) (a : Addr) : Option Word :=
  if i.base ≤ a then Bytes.word? i.data (a - i.base).toNat else none

/-- Fetches the word at an address. An address that is not aligned is refused as such even if it
lies outside too. -/
def fetch (i : Image) (a : Addr) : Except Fault Word :=
  if a.Aligned then
    match i.word? a with
    | some w => .ok w
    | none => .error (.outOfBounds a)
  else .error (.unaligned a)

end Image

end Disarm
