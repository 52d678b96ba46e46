import Disarm.Word
import Disarm.Text.Hex
/-!
Errors of executable files. Every part of a file that is read is checked against the end of the
file first, and the error names the part.
-/

namespace Disarm.Elf

/-- The parts of a file that may lie past its end. A single field never does, for whole records are
checked first. -/
inductive Region where
  | field
  | programHeader
  | segmentData
  | sectionHeader
  | nameTableLink
  | nameTable
  | symbolTable
  | symbolName
deriving DecidableEq, Repr

def Region.name : Region → String
  | .field => "field"
  | .programHeader => "phdr"
  | .segmentData => "segment data"
  | .sectionHeader => "shdr"
  | .nameTableLink => "strtab link"
  | .nameTable => "strtab"
  | .symbolTable => "symtab"
  | .symbolName => "symbol name"

/-- Why a file is refused. -/
inductive Error where
  | tooSmall
  | badMagic
  | notElf32
  | notLittleEndian
  | outOfBounds (part : Region)
  | segmentTooLarge (address : Addr) (size : Nat)
deriving DecidableEq, Repr

def Error.message : Error → String
  | .tooSmall => "file too small for ELF header"
  | .badMagic => "not an ELF file"
  | .notElf32 => "not a 32-bit ELF"
  | .notLittleEndian => "not a little-endian ELF"
  | .outOfBounds part => part.name ++ " out of bounds"
  | .segmentTooLarge address size =>
    "segment at " ++ Hex.marked address.toNat ++ " too large (0x" ++ Hex.text size ++ " bytes)"

/-- What was read, or the error that its part lies past the end. -/
def Region.need {α : Type} (part : Region) (o : Option α) : Except Error α :=
  match o with
  | some a => .ok a
  | none => .error (.outOfBounds part)

end Disarm.Elf
