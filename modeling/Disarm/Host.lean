import Disarm.Log
import Disarm.Instruction.Line
/-!
Disassembly through a host. The decoder reads no memory and writes no text of its own: the host
supplies the word and takes the pieces of the line. A host is given by four functions on a state.
-/

namespace Disarm

/-- What disassembly needs from its surroundings, whose state is of type `σ`. A host writes
addresses in its own way. -/
structure Host (σ : Type) where
  fetch : Addr → σ → Word × σ
  writeAddress : Addr → σ → σ
  write : String → σ → σ
  note : LogEvent → σ → σ

/-- The events of decoding: the word with its bare mnemonic, and a second one if it is undefined. -/
def Instruction.events (i : Instruction) (loc : Addr) : List LogEvent :=
  .decoded loc i.word i.entry.name :: if i.entry.Undefined then [.undefined loc i.word] else []

namespace Host

variable {σ : Type}

def emit (h : Host σ) : List Piece → σ → σ
  | [], s => s
  | .text t :: l, s => emit h l (h.write t s)
  | .address a :: l, s => emit h l (h.writeAddress a s)

/-- Disassembles the instruction at an address: one word is read, one line is written. The result
is the address of the next instruction. -/
def disassemble (h : Host σ) (loc : Addr) (raw : Bool) (s : σ) : Addr × σ :=
  let (w, s) := h.fetch loc s
  let i := Instruction.decode loc w
  let s := (i.events loc).foldl (fun s e => h.note e s) s
  (loc + 4, h.emit (i.pieces raw) s)

/-- Disassembles a number of consecutive instructions. The result is the address after the last. -/
def disassembleMany (h : Host σ) (raw : Bool) : Nat → Addr → σ → Addr × σ
  | 0, loc, s => (loc, s)
  | n + 1, loc, s =>
    let (next, s) := h.disassemble loc raw s
    disassembleMany h raw n next s

/-- A run is the same as two runs, the second from where the first ended. -/
theorem disassembleMany_add (h : Host σ) (raw : Bool) (m n : Nat) (loc : Addr) (s : σ) :
    h.disassembleMany raw (m + n) loc s =
      h.disassembleMany raw n (h.disassembleMany raw m loc s).1
        (h.disassembleMany raw m loc s).2 := by
  induction m generalizing loc s with
  | zero => rw [Nat.zero_add, disassembleMany]
  | succ m ih =>
    rw [Nat.add_right_comm]
    exact ih _ _

end Host

end Disarm
