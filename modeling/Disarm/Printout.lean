import Disarm.Image.Session
import Disarm.Elf.File
/-!
Listings. A listing has one row for each instruction, with the name of the symbol that starts there
as a heading. Rows are written in order into a sink, which may run full.
-/

namespace Disarm

/-- The table of a file's symbols. Of two at one address the later one stays. -/
def SymbolTable.ofElf (l : List Elf.Symbol) : SymbolTable :=
  .ofList (l.map fun s => ⟨s.address, s.size, s.name⟩)

structure Row where
  loc : Addr
  heading : Option String
  line : Except Fault String
  log : Log

namespace Row

/-- The heading's text, after a blank line unless it opens the listing. -/
def headingText (r : Row) (first : Bool) : String :=
  match r.heading with
  | none => ""
  | some name => (if first then "" else "\n") ++ "<" ++ name ++ ">:\n"

def lineText (r : Row) (line : String) : String := Hex.aligned 8 r.loc.toNat ++ ":\t" ++ line

end Row

structure Printout where
  image : Image
  symbols : Option SymbolTable
  raw : Bool

namespace Printout

/-- The row at an address. Each row is disassembled in a session of its own. -/
def row (l : Printout) (loc : Addr) : Row :=
  let s := (Session.host.disassemble loc l.raw { image := l.image, symbols := l.symbols }).2
  { loc
    heading := l.symbols.bind (·.get? loc)
    line := match s.fault with
      | some f => .error f
      | none => .ok s.output
    log := match s.fault with
      | some f => s.log.push (.stopped f)
      | none => s.log }

/-- At most a number of rows from an address on. They end with the image, with the address space,
and after a row that faults. -/
def rows (l : Printout) : Nat → Addr → List Row
  | 0, _ => []
  | n + 1, loc =>
    if l.image.HasWord loc then
      let r := l.row loc
      r :: if r.line.toOption.isSome ∧ loc < loc + 4 then rows l n (loc + 4) else []
    else []

end Printout

/-- A place to write to. It takes bytes until it is full, if there is a limit at all. -/
structure Sink where
  room : Option Nat := none
  bytes : ByteArray := .empty

namespace Sink

/-- Writes text, or as much of it as there is room for. The result says whether all of it went in. -/
def write (t : String) (s : Sink) : Bool × Sink :=
  let b := t.toUTF8
  match s.room with
  | none => (true, { s with bytes := s.bytes ++ b })
  | some n =>
    if b.size ≤ n then (true, ⟨some (n - b.size), s.bytes ++ b⟩)
    else (false, ⟨some 0, s.bytes ++ b.extract 0 n⟩)

end Sink

/-- Where a sink ran full. -/
inductive WriteError where
  | heading
  | line
deriving DecidableEq, Repr

namespace WriteError

def context : WriteError → Option String
  | heading => none
  | line => some "write failed"

/-- The cause if the sink was given its limit. -/
def full : String := "writer full"

def message (e : WriteError) : String :=
  match e.context with
  | none => full
  | some c => c ++ ": " ++ full

end WriteError

structure Written where
  count : Except WriteError Nat
  sink : Sink
  log : Log

namespace Printout

def writeRows : List Row → Nat → Sink → Log → Written
  | [], n, sink, log => ⟨.ok n, sink, log⟩
  | r :: l, n, sink, log =>
    match sink.write (r.headingText (n = 0)) with
    | (false, sink) => ⟨.error .heading, sink, log⟩
    | (true, sink) =>
      let log := log ++ r.log
      match r.line with
      | .error _ => ⟨.ok n, sink, log⟩
      | .ok line =>
        match sink.write (r.lineText line) with
        | (false, sink) => ⟨.error .line, sink, log⟩
        | (true, sink) => writeRows l (n + 1) sink log

/-- Writes at most `count` instructions from an address on. -/
def write (l : Printout) (start : Addr) (count : Nat) (sink : Sink) : Written :=
  writeRows (l.rows count start) 0 sink #[]

end Printout

end Disarm
