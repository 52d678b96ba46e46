import Disarm.Host
/-!
A host that records the calls made to it. Lines that differ in how they are cut into calls read the
same, so two records are compared after neighbouring texts have been joined.
-/

namespace Disarm

inductive Call where
  | read (a : Addr)
  | address (a : Addr)
  | text (s : String)
deriving DecidableEq, Repr

/-- Joins neighbouring texts and drops empty ones. -/
def Call.join : List Call → List Call
  | [] => []
  | .text s :: l =>
    match join l with
    | .text t :: r => .text (s ++ t) :: r
    | r => if s = "" then r else .text s :: r
  | c :: l => c :: join l

/-- A record of calls over a fixed memory. -/
structure Recorder where
  memory : Addr → Word
  calls : Array Call := #[]
  log : Log := #[]

namespace Recorder

def host : Host Recorder where
  fetch a s := (s.memory a, { s with calls := s.calls.push (.read a) })
  writeAddress a s := { s with calls := s.calls.push (.address a) }
  write t s := { s with calls := s.calls.push (.text t) }
  note e s := { s with log := s.log.push e }

def joined (s : Recorder) : List Call := Call.join s.calls.toList

end Recorder

end Disarm
