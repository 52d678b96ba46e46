import Disarm.Fault
/-!
The log. An event says what happened; its level and its text are functions of it.
-/

namespace Disarm

/-- How much an event matters, the least first. -/
inductive LogLevel where
  | trace | debug | info | warn
deriving DecidableEq, Repr

inductive LogEvent where
  | decoded (loc : Addr) (w : Word) (name : String)
  | undefined (loc : Addr) (w : Word)
  | faulted (f : Fault)
  | stopped (f : Fault)
  | laidOut (low : Addr) (stop segments : Nat)
  | starting (symbols : Nat) (loc : Addr)
  | finished (instructions : Nat)
deriving DecidableEq, Repr

namespace LogEvent

def level : LogEvent → LogLevel
  | decoded .. => .trace
  | undefined .. | faulted .. | laidOut .. => .debug
  | stopped .. => .warn
  | starting .. | finished .. => .info

def message : LogEvent → String
  | decoded loc w name => Hex.marked loc.toNat ++ ": " ++ Hex.marked w.toNat ++ " " ++ name
  | undefined loc w =>
    "undefined instruction " ++ Hex.marked w.toNat ++ " at " ++ Hex.marked loc.toNat
  | faulted f | stopped f => f.message
  | laidOut low stop segments =>
    "image " ++ Hex.marked low.toNat ++ ".." ++ Hex.marked stop ++ ", " ++ toString segments ++
      " segment(s)"
  | starting symbols loc =>
    toString symbols ++ " symbol(s), listing from " ++ Hex.marked loc.toNat
  | finished instructions => toString instructions ++ " instruction(s)"

end LogEvent

abbrev Log := Array LogEvent

end Disarm
