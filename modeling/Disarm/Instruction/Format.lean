/-!
Line formats. A format lists what is glued to the mnemonic and then the operand slots in printing
order. Each part has a code, and the codes in order are the format's compact spelling.
-/

namespace Disarm

/-- A marker glued to the mnemonic after the condition. -/
inductive Suffix where
  | setFlags
  | comparePc
  | long
  | blockMode
  | stackMode
  | precision
  | transferPrecision
  | rounding
deriving DecidableEq, Repr

def Suffix.code : Suffix → String
  | .setFlags => "S"
  | .comparePc => "D"
  | .long => "L"
  | .blockMode => "X"
  | .stackMode => "Y"
  | .precision => "P"
  | .transferPrecision => "Q"
  | .rounding => "R"

/-- A place in the operand list. -/
inductive Slot where
  | rd
  | rn
  | rs
  | rm
  | base
  | rotatedRm
  | atRn
  | flexible
  | address
  | splitAddress
  | registers
  | branch
  | exchangeBranch
  | breakpoint
  | comment
  | word
  | status
  | statusFields
  | lowestBit
  | width
  | coprocessor
  | coprocessorOperation
  | coprocessorMove
  | coprocessorTransfer
  | coprocessorAddress
  | fd
  | fn
  | fm
  | floatCount
deriving DecidableEq, Repr

/-- The code of a slot: a sign other than a capital letter, perhaps followed by one capital. -/
def Slot.code : Slot → String
  | .rd => "d"
  | .rn => "n"
  | .rs => "s"
  | .rm => "m"
  | .base => "nW"
  | .rotatedRm => "mJ"
  | .atRn => "o"
  | .flexible => "2"
  | .address => "a"
  | .splitAddress => "e"
  | .registers => "l"
  | .branch => "b"
  | .exchangeBranch => "t"
  | .breakpoint => "k"
  | .comment => "c"
  | .word => "x"
  | .status => "p"
  | .statusFields => "pF"
  | .lowestBit => "i"
  | .width => "w"
  | .coprocessor => "#"
  | .coprocessorOperation => "y"
  | .coprocessorMove => "z"
  | .coprocessorTransfer => "v"
  | .coprocessorAddress => "q"
  | .fd => "f"
  | .fn => "g"
  | .fm => "h"
  | .floatCount => "r"

end Disarm
