import Disarm.Host
import Disarm.Image
import Disarm.SymbolTable
/-!
Disassembly of an image. A session collects the text that is printed and keeps the first fault; a
fetch that faults yields zero. Printed addresses are followed by the symbol they belong to.
-/

namespace Disarm

/-- A run of disassembly over an image. It keeps the text printed and the first fault until they are
taken. -/
structure Session where
  image : Image
  symbols : Option SymbolTable := none
  output : String := ""
  fault : Option Fault := none
  log : Log := #[]

/-- An address in marked form with its symbol and, past the symbol's start, the distance. -/
def SymbolTable.annotate (t : Option SymbolTable) (a : Addr) : String :=
  Hex.marked a.toNat ++
    match t.bind (·.owner? a) with
    | none => ""
    | some (name, offset) =>
      if offset = 0 then " <" ++ name ++ ">"
      else " <" ++ name ++ "+0x" ++ Hex.text offset.toNat ++ ">"

namespace Session

/-- Fetches a word. Every fault is noted, and the first one is kept. -/
def fetch (a : Addr) (s : Session) : Word × Session :=
  match s.image.fetch a with
  | .ok w => (w, s)
  | .error f => (0, { s with fault := s.fault.or (some f), log := s.log.push (.faulted f) })

def writeAddress (a : Addr) (s : Session) : Session :=
  { s with output := s.output ++ SymbolTable.annotate s.symbols a }

def write (t : String) (s : Session) : Nat × Session :=
  (t.utf8ByteSize, { s with output := s.output ++ t })

def host : Host Session where
  fetch := fetch
  writeAddress := writeAddress
  write t s := (write t s).2
  note e s := { s with log := s.log.push e }

theorem emit_eq (l : List Piece) (s : Session) :
    host.emit l s =
      { s with output := s.output ++ Piece.render (SymbolTable.annotate s.symbols) l } := by
  induction l generalizing s with
  | nil => simp [Host.emit, Piece.render]
  | cons p l ih =>
    cases p with
    | text t => rw [Piece.render, ← String.append_assoc]; exact ih _
    | address a => rw [Piece.render, ← String.append_assoc]; exact ih _

def popOutput (s : Session) : String × Session := (s.output, { s with output := "" })

def popFault (s : Session) : Option Fault × Session := (s.fault, { s with fault := none })

end Session

/-- A text without the line ends it closes with. -/
def withoutLineEnd (s : String) : String :=
  String.ofList (s.toList.reverse.dropWhile (· = '\n')).reverse

/-- Disassembles one instruction from bytes that stand at an address; bytes after the fourth are
ignored. The result is the line without its end, and the events on the way. -/
def disassembleBytes (pc : Addr) (data : ByteArray) : Except Fault String × Log :=
  if data.size < wordSize then (.error (.truncated pc wordSize data.size), #[])
  else
    let s : Session := { image := ⟨pc, data.extract 0 wordSize⟩ }
    let s := (Session.host.disassemble pc false s).2
    (match s.fault with
      | some f => .error f
      | none => .ok (withoutLineEnd s.output), s.log)

/-- The same with the number of bytes the instruction takes. -/
def disassembleFirst (pc : Addr) (data : ByteArray) : Except Fault (String × Nat) × Log :=
  let (r, log) := disassembleBytes pc data
  (r.map fun text => (text, wordSize), log)

end Disarm
