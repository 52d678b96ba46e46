import Disarm.Host
/-!
A host that writes everything, addresses included, into one text.
-/

namespace Disarm

/-- A growing text over a fixed memory. -/
structure Transcript where
  memory : Addr → Word
  spell : Addr → String
  output : String := ""
  log : Log := #[]

namespace Transcript

def host : Host Transcript where
  fetch a s := (s.memory a, s)
  writeAddress a s := { s with output := s.output ++ s.spell a }
  write t s := { s with output := s.output ++ t }
  note e s := { s with log := s.log.push e }

theorem emit_eq (l : List Piece) (s : Transcript) :
    host.emit l s = { s with output := s.output ++ Piece.render s.spell l } := by
  induction l generalizing s with
  | nil => simp [Host.emit, Piece.render]
  | cons p l ih =>
    cases p with
    | text t => rw [Piece.render, ← String.append_assoc]; exact ih _
    | address a => rw [Piece.render, ← String.append_assoc]; exact ih _

def console (memory : Addr → Word) : Transcript := { memory, spell := fun a => Hex.marked a.toNat }

/-- A compact form: addresses have a sign and their shortest digits. -/
def compact (memory : Addr → Word) : Transcript :=
  { memory, spell := fun a => "@" ++ Hex.text a.toNat }

/-- The memory that holds consecutive words from an address on, and zero elsewhere. -/
def wordsAt (loc : Addr) (words : Array Word) (a : Addr) : Word :=
  words.getD ((a - loc).toNat / wordSize) 0

end Transcript

end Disarm
