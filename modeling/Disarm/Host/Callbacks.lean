import Disarm.Host
/-!
Disassembly through a table of callbacks of which some may be missing. Locations have 64 bits here;
the decoder sees the lower half.
-/

namespace Disarm

/-- A location of the calling process. -/
abbrev Location := BitVec 64

structure Callbacks (σ : Type) where
  fetch : Option (Addr → σ → Word × σ)
  writeAddress : Option (Addr → σ → σ)
  write : Option (String → σ → σ)

namespace Callbacks

variable {σ : Type}

/-- Text that can be passed on with a zero character behind it, for it holds none itself. -/
def Terminable (t : String) : Prop := '\x00' ∉ t.toList

instance (t : String) : Decidable (Terminable t) := inferInstanceAs (Decidable (¬_))

/-- Passes text on if that can be done, and drops it otherwise. -/
def passText (write : String → σ → σ) (t : String) (s : σ) : σ :=
  if Terminable t then write t s else s

/-- The host a table makes, if nothing is missing from it. -/
def host? (c : Callbacks σ) (note : LogEvent → σ → σ) : Option (Host σ) :=
  match c.fetch, c.writeAddress, c.write with
  | some fetch, some writeAddress, some write =>
    some { fetch, writeAddress, write := passText write, note }
  | _, _, _ => none

/-- Disassembles through a table. Without a complete table nothing is called and the location stays
as it is; otherwise the result is the next location. Any flag but zero asks for a raw line. -/
def disassemble (table : Option (Callbacks σ)) (note : LogEvent → σ → σ) (loc : Location)
    (flag : Int) (s : σ) : Location × σ :=
  match table.bind (·.host? note) with
  | none => (loc, s)
  | some h => (loc + 4, (h.disassemble (loc.setWidth 32) (flag != 0) s).2)

end Callbacks

end Disarm
