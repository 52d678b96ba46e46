import Disarm.Elf.File
/-!
Where a listing starts: at a given address, else at a named symbol, else at the entry point.
-/

namespace Disarm

/-- Why there is no address to start at. -/
inductive StartError where
  | unknownSymbol (name : String)
  | thumbSymbol (name : String)
  | thumbEntry (entry : Addr)
  | unaligned (a : Addr)
deriving DecidableEq, Repr

def StartError.message : StartError → String
  | .unknownSymbol name => "symbol not found: " ++ name
  | .thumbSymbol name => name ++ " is Thumb code; only A32 is supported"
  | .thumbEntry entry => "entry point " ++ Hex.marked entry.toNat ++ " is Thumb code; use --start"
  | .unaligned a => "start address " ++ Hex.marked a.toNat ++ " is not word aligned"

namespace Start

def ofSymbol (symbols : List Elf.Symbol) (name : String) : Except StartError Addr :=
  match symbols.find? (·.name = name) with
  | none => .error (.unknownSymbol name)
  | some s => if s.thumb then .error (.thumbSymbol name) else .ok s.address

/-- The entry point. An odd one is in Thumb code. -/
def ofEntry (entry : Addr) : Except StartError Addr :=
  if entry.getLsbD 0 then .error (.thumbEntry entry) else .ok entry

def choose (entry : Addr) (symbols : List Elf.Symbol) :
    Option Addr → Option String → Except StartError Addr
  | some a, _ => .ok a
  | none, some name => ofSymbol symbols name
  | none, none => ofEntry entry

/-- The address to start at. -/
def locate (entry : Addr) (symbols : List Elf.Symbol) (start : Option Addr)
    (symbol : Option String) : Except StartError Addr := do
  let a ← choose entry symbols start symbol
  if a.Aligned then return a else .error (.unaligned a)

end Start

end Disarm
