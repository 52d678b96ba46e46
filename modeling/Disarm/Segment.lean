import Disarm.Word
/-!
Segments of a program: bytes with the address they are loaded at.
-/

namespace Disarm

structure Segment where
  address : Addr
  data : ByteArray
  executable : Bool

namespace Segment

/-- One past the last address, not wrapped. -/
def stop (s : Segment) : Nat := s.address.toNat + s.data.size

/-- The most bytes a segment of code may have: 64 MiB. -/
def maxSize : Nat := 64 * 1024 * 1024

end Segment

end Disarm
