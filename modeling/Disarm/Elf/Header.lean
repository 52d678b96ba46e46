import Disarm.Bytes
import Disarm.Elf.Error
/-!
The records of an executable file: file header, program headers and section headers. A whole record
is checked against the end of the file before its fields are read.
-/

namespace Disarm.Elf

def half (data : ByteArray) (i : Nat) : Except Error Nat :=
  return (← Region.field.need (Bytes.half? data i)).toNat

def word (data : ByteArray) (i : Nat) : Except Error Word := Region.field.need (Bytes.word? data i)

/-- A 32-bit field that counts or locates bytes of the file. -/
def size (data : ByteArray) (i : Nat) : Except Error Nat := return (← word data i).toNat

/-- What the file header says. -/
structure Header where
  entry : Addr
  machine : Nat
  programOffset : Nat
  programStride : Nat
  programCount : Nat
  sectionOffset : Nat
  sectionStride : Nat
  sectionCount : Nat
deriving DecidableEq, Repr

namespace Header

def length : Nat := 52

/-- The first four bytes of every file, as a word. -/
def magic : Word := Word.ofBytes 0x7f 0x45 0x4c 0x46

/-- Reads the file header. Of several flaws the size is reported first, then the magic number, the
class and the byte order. -/
def read (data : ByteArray) : Except Error Header :=
  if data.size < length then .error .tooSmall
  else if Bytes.word? data 0 ≠ some magic then .error .badMagic
  else if Bytes.byte? data 4 ≠ some 1 then .error .notElf32
  else if Bytes.byte? data 5 ≠ some 1 then .error .notLittleEndian
  else return {
    machine := ← half data 18
    entry := ← word data 24
    programOffset := ← size data 28
    sectionOffset := ← size data 32
    programStride := ← half data 42
    programCount := ← half data 44
    sectionStride := ← half data 46
    sectionCount := ← half data 48 }

end Header

structure ProgramHeader where
  kind : Word
  offset : Nat
  address : Addr
  fileSize : Nat
  memorySize : Nat
  flags : Word
deriving DecidableEq, Repr

namespace ProgramHeader

def length : Nat := 32

def read (data : ByteArray) (i : Nat) : Except Error ProgramHeader :=
  if data.size < i + length then .error (.outOfBounds .programHeader)
  else return {
    kind := ← word data i
    offset := ← size data (i + 4)
    address := ← word data (i + 8)
    fileSize := ← size data (i + 16)
    memorySize := ← size data (i + 20)
    flags := ← word data (i + 24) }

def Loaded (p : ProgramHeader) : Prop := p.kind = 1

instance (p : ProgramHeader) : Decidable p.Loaded := inferInstanceAs (Decidable (_ = _))

def executable (p : ProgramHeader) : Bool := p.flags.bit 0

end ProgramHeader

structure Section where
  kind : Word
  offset : Nat
  size : Nat
  link : Nat
deriving DecidableEq, Repr

namespace Section

def length : Nat := 40

def read (data : ByteArray) (i : Nat) : Except Error Section :=
  if data.size < i + length then .error (.outOfBounds .sectionHeader)
  else return {
    kind := ← word data (i + 4)
    offset := ← Elf.size data (i + 16)
    size := ← Elf.size data (i + 20)
    link := ← Elf.size data (i + 24) }

def IsSymbolTable (s : Section) : Prop := s.kind = 2

instance (s : Section) : Decidable s.IsSymbolTable := inferInstanceAs (Decidable (_ = _))

def bytes (data : ByteArray) (part : Region) (s : Section) : Except Error ByteArray :=
  part.need (Bytes.slice? data s.offset s.size)

end Section

end Disarm.Elf
