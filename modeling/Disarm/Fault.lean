import Disarm.Word
import Disarm.Text.Hex
/-!
Faults of instruction fetch. Decoding itself never fails: a word that encodes nothing is printed as
undefined. Only the memory that words come from can be at fault.
-/

namespace Disarm

/-- Why no word could be fetched. -/
inductive Fault where
  | truncated (address : Addr) (needed available : Nat)
  | outOfBounds (address : Addr)
  | unaligned (address : Addr)
deriving DecidableEq, Repr

def Fault.message : Fault → String
  | .truncated address needed available =>
    "truncated instruction at " ++ Hex.marked address.toNat ++ ": need " ++ toString needed ++
      " bytes, have " ++ toString available
  | .outOfBounds address => "address " ++ Hex.marked address.toNat ++ " is outside the image"
  | .unaligned address => "unaligned instruction address " ++ Hex.marked address.toNat

end Disarm
