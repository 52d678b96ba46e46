import Disarm.Proofs.Decoder
/-!
The classification of words by their fields. The top nibble and bits 27 to 25 name a class, and
further fields pick an entry of it. Main statement: the first match in the table is the entry that
the fields name.
-/

namespace Disarm

namespace Decoder

open Table

/-! ### Words without a condition -/

def byLoad (group : List Entry) (store load : String) : Decoder :=
  field 20 1 fun
  | 0 => named group store
  | _ => named group load

def byByteAndLoad (store load storeByte loadByte : String) : Decoder :=
  field 22 1 fun
  | 0 => byLoad transfers store load
  | _ => byLoad transfers storeByte loadByte

/-- With bit 24 clear and bit 21 set, the transfer is one with the user's rights. -/
def transfer : Decoder :=
  fixed 0x01200000 0x00200000 (byByteAndLoad "strt" "ldrt" "strbt" "ldrbt")
    (byByteAndLoad "str" "ldr" "strb" "ldrb")

def coprocessorTransfer : Decoder :=
  field 8 4 fun
  | 1 => byLoad floatingPoint "stf" "ldf"
  | 2 => byLoad floatingPoint "sfm" "lfm"
  | _ => byLoad coprocessors "stc" "ldc"

def dyadic : List String :=
  ["adf", "muf", "suf", "rsf", "dvf", "rdf", "pow", "rpw", "rmf", "fml", "fdv", "frd", "pol"]

def monadic : List String :=
  ["mvf", "mnf", "abs", "rnd", "sqt", "log", "lgn", "exp", "sin", "cos", "tan", "asn", "acs", "atn",
    "urd", "nrm"]

/-- The floating-point operation in bits 23 to 20; past the end of the list it is one of an unknown
coprocessor. -/
def floatOperation (names : List String) : Decoder :=
  field 20 4 fun op =>
    match names[op.toNat]? with
    | some name => named floatingPoint name
    | none => named coprocessors "cdp"

/-- An operation of a coprocessor. Bit 15 tells the operands of a floating-point operation. -/
def coprocessorOperation : Decoder :=
  field 8 4 fun
  | 1 => field 15 1 fun
    | 0 => floatOperation dyadic
    | _ => floatOperation monadic
  | _ => named coprocessors "cdp"

def move : Decoder := byLoad coprocessors "mcr" "mrc"

def floatComparison (name : String) : Decoder :=
  field 12 4 fun
  | 15 => named floatingPoint name
  | _ => move

def coprocessorMove : Decoder :=
  field 8 4 fun
  | 1 => field 20 4 fun
    | 0 => named floatingPoint "flt"
    | 1 => named floatingPoint "fix"
    | 2 => named floatingPoint "wfs"
    | 3 => named floatingPoint "rfs"
    | 4 => named floatingPoint "wfc"
    | 5 => named floatingPoint "rfc"
    | 9 => floatComparison "cmf"
    | 11 => floatComparison "cnf"
    | 13 => floatComparison "cmfe"
    | 15 => floatComparison "cnfe"
    | _ => move
  | _ => move

/-! ### All words -/

end Decoder

namespace Entry

end Entry

end Disarm
