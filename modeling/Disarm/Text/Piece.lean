import Disarm.Word
/-!
Printed text with addresses left open. The decoder does not know how an address is to be
written, so a line is a list of pieces, and each host writes the addresses in its own way.
-/

namespace Disarm

/-- A part of a printed line, text or an address. Each is handed over in a call of its own. -/
inductive Piece where
  | text (s : String)
  | address (a : Addr)
deriving DecidableEq, Repr

namespace Piece

def render (f : Addr → String) : List Piece → String
  | [] => ""
  | .text s :: l => s ++ render f l
  | .address a :: l => f a ++ render f l

/-- Puts neighbouring texts into one piece. -/
def fuse : List Piece → List Piece
  | [] => []
  | .text s :: l =>
    match fuse l with
    | .text t :: m => .text (s ++ t) :: m
    | m => .text s :: m
  | .address a :: l => .address a :: fuse l

end Piece

end Disarm
