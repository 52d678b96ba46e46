import Disarm.Image
import Disarm.Segment
import Disarm.Log
/-!
Laying out segments as one image. The image spans the executable segments; gaps are zero, and where
segments overlap the later one wins.
-/

namespace Disarm

/-- Why segments make no image. -/
inductive LayoutError where
  | noCode
  | tooWide (span : Nat)
deriving DecidableEq, Repr

def LayoutError.message : LayoutError → String
  | .noCode => "no executable segments found"
  | .tooWide span => "executable segments span 0x" ++ Hex.text span ++ " bytes"

namespace Image

/-- The widest image that is built. -/
def maxSpan : Nat := 4 * Segment.maxSize

def lay (low span : Nat) (l : List Segment) : ByteArray :=
  l.foldl (fun b s => Bytes.overlay b (s.address.toNat - low) s.data) (Bytes.zeros span)

/-- The image of a program's code. -/
def ofSegments (l : List Segment) : Except LayoutError Image :=
  let code := l.filter (·.executable)
  match (code.map (·.address.toNat)).min?, (code.map Segment.stop).max? with
  | some low, some high =>
    if maxSpan < high - low then .error (.tooWide (high - low))
    else .ok ⟨BitVec.ofNat 32 low, lay low (high - low) code⟩
  | _, _ => .error .noCode

def laidOut (i : Image) (l : List Segment) : LogEvent :=
  .laidOut i.base i.stop (l.countP (·.executable))

end Image

end Disarm
