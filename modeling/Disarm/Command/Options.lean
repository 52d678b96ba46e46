import Disarm.Word
/-!
What the command line can ask for.
-/

namespace Disarm.Command

/-- What is asked for. Without an output the listing goes to standard output. -/
structure Options where
  file : String
  start : Option Addr := none
  symbol : Option String := none
  count : Nat := 64
  raw : Bool := false
  noSymbols : Bool := false
  output : Option String := none
  verbose : Bool := false
deriving DecidableEq, Repr

/-- Why an argument list leads to no listing, with what is told about it. -/
inductive Halt where
  | help (text : String)
  | usage (message : String)
deriving DecidableEq, Repr

end Disarm.Command
