import Disarm.Elf.Header
import Disarm.Segment
/-!
Executable files: entry point, machine, loaded segments and named functions and objects, each in
file order. The program headers are checked before the section headers, and these before the
symbols; the first flaw decides.
-/

namespace Disarm.Elf

inductive SymbolKind where
  | function
  | object
deriving DecidableEq, Repr

/-- A named function or object. Its address is without the mark of Thumb code. -/
structure Symbol where
  name : String
  address : Addr
  size : Word
  kind : SymbolKind
  thumb : Bool
deriving DecidableEq, Repr

structure File where
  entry : Addr
  machine : Nat
  segments : List Segment
  symbols : List Symbol

/-- The machine number of the 32-bit ARM architecture. -/
def armMachine : Nat := 40

/-! ### Segments -/

/-- The segment of a loaded header. Only code is disassembled, so only code is filled up with zeros
to its size in memory, and only its size has a limit. -/
def ProgramHeader.segment (data : ByteArray) (p : ProgramHeader) : Except Error Segment := do
  let bytes ← Region.segmentData.need (Bytes.slice? data p.offset p.fileSize)
  if p.executable then
    let size := max p.memorySize p.fileSize
    if Segment.maxSize < size then .error (.segmentTooLarge p.address size)
    else return ⟨p.address, bytes ++ Bytes.zeros (size - p.fileSize), true⟩
  else return ⟨p.address, bytes, false⟩

def segmentAt (data : ByteArray) (i : Nat) : Except Error (Option Segment) := do
  let p ← ProgramHeader.read data i
  if p.Loaded then return some (← p.segment data) else return none

def loadedSegments (data : ByteArray) (h : Header) : Except Error (List Segment) :=
  return (← (List.range h.programCount).mapM fun i =>
    segmentAt data (h.programOffset + i * h.programStride)).filterMap id

/-! ### Symbols -/

namespace Symbol

def length : Nat := 16

/-- The kind in the low half of a symbol's type byte. Other kinds are not listed. -/
def kindOf (info : UInt8) : Option SymbolKind :=
  if info &&& 0xf = 2 then some .function
  else if info &&& 0xf = 1 then some .object
  else none

/-- The name at an offset of a name table: the bytes up to the first zero or the end. Bytes that
are not UTF-8 make no name. -/
def nameAt (names : ByteArray) (i : Nat) : Except Error String :=
  if i ≤ names.size then
    .ok ((String.fromUTF8? (names.extract i (Bytes.zeroFrom names i))).getD "")
  else .error (.outOfBounds .symbolName)

/-- A name that is listed. Names that start with a dollar sign mark runs of code and data. -/
def Proper (name : String) : Prop := name ≠ "" ∧ name.toList.head? ≠ some '$'

instance (name : String) : Decidable (Proper name) := inferInstanceAs (Decidable (_ ∧ _))

/-- The symbol of a name, value, size and kind. An odd value marks a function in Thumb code. -/
def make (name : String) (value size : Word) (kind : SymbolKind) : Symbol :=
  let thumb := kind = .function ∧ value.bit 0 = true
  ⟨name, if thumb then value &&& ~~~1 else value, size, kind, thumb⟩

/-- Reads a symbol record. Nothing comes of symbols of other kinds, of undefined ones and of those
without a proper name. -/
def read (table names : ByteArray) (i : Nat) : Except Error (Option Symbol) := do
  let nameOffset ← Elf.size table i
  let value ← word table (i + 4)
  let size ← word table (i + 8)
  let info ← Region.field.need (Bytes.byte? table (i + 12))
  let place ← half table (i + 14)
  match kindOf info with
  | none => return none
  | some kind =>
    if place = 0 then return none
    else
      let name ← nameAt names nameOffset
      return if Proper name then some (make name value size kind) else none

end Symbol

def sectionsOf (data : ByteArray) (h : Header) : Except Error (List Section) :=
  (List.range h.sectionCount).mapM fun i =>
    Section.read data (h.sectionOffset + i * h.sectionStride)

/-- The symbols of one table. Bytes after the last whole record are ignored. -/
def tableSymbols (data : ByteArray) (l : List Section) (s : Section) : Except Error (List Symbol) := do
  let nameSection ← Region.nameTableLink.need l[s.link]?
  let names ← nameSection.bytes data .nameTable
  let table ← s.bytes data .symbolTable
  return (← (List.range (table.size / Symbol.length)).mapM fun i =>
    Symbol.read table names (i * Symbol.length)).filterMap id

def definedSymbols (data : ByteArray) (l : List Section) : Except Error (List Symbol) :=
  return (← (l.filter fun s => s.IsSymbolTable).mapM (tableSymbols data l)).flatten

/-- Reads an executable file. -/
def File.ofBytes (data : ByteArray) : Except Error File := do
  let h ← Header.read data
  let segments ← loadedSegments data h
  let sections ← sectionsOf data h
  let symbols ← definedSymbols data sections
  return ⟨h.entry, h.machine, segments, symbols⟩

end Disarm.Elf
