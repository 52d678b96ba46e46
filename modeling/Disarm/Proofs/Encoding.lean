import Disarm.Elf.File
import Disarm.Proofs.Placement
import Mathlib.Algebra.Ring.Nat
/-!
Records as bytes. Each kind of record has an encoding, and where the encoding stands the record is
read. Fields that are not read have the values of an ordinary executable.
-/

namespace Disarm.Elf

open Bytes

variable {data : ByteArray} {i : Nat}

theorem half_of_placed {x : BitVec 16} (h : Placed data i (ofHalf x)) :
    half data i = .ok x.toNat := by
  rw [half, h.half?]
  rfl

theorem count_of_placed {n : Nat} (fits : n < 2 ^ 16) (h : Placed data i (ofHalf (.ofNat 16 n))) :
    half data i = .ok n := by
  rw [half_of_placed h, BitVec.toNat_ofNat, Nat.mod_eq_of_lt fits]

theorem word_of_placed {w : Word} (h : Placed data i (ofWord w)) : word data i = .ok w := by
  rw [word, h.word?]
  rfl

theorem size_of_placed {n : Nat} (fits : n < 2 ^ 32) (h : Placed data i (ofWord (.ofNat 32 n))) :
    size data i = .ok n := by
  rw [size, word_of_placed h]
  change Except.ok (BitVec.ofNat 32 n).toNat = _
  rw [BitVec.toNat_ofNat, Nat.mod_eq_of_lt fits]

/-! ### File headers -/

namespace Header

/-- The numbers of a header can be written in its fields. -/
structure Fits (h : Header) : Prop where
  machine : h.machine < 2 ^ 16
  programOffset : h.programOffset < 2 ^ 32
  programStride : h.programStride < 2 ^ 16
  programCount : h.programCount < 2 ^ 16
  sectionOffset : h.sectionOffset < 2 ^ 32
  sectionStride : h.sectionStride < 2 ^ 16
  sectionCount : h.sectionCount < 2 ^ 16

def encode (h : Header) : ByteArray := join [
  ofWord magic, ofByte 1, ofByte 1, ofHalf 1, ofWord 0, ofWord 0,
  ofHalf 2, ofHalf (.ofNat 16 h.machine), ofWord 1, ofWord h.entry,
  ofWord (.ofNat 32 h.programOffset), ofWord (.ofNat 32 h.sectionOffset), ofWord 0,
  ofHalf 52, ofHalf (.ofNat 16 h.programStride), ofHalf (.ofNat 16 h.programCount),
  ofHalf (.ofNat 16 h.sectionStride), ofHalf (.ofNat 16 h.sectionCount), ofHalf 0]

theorem size_encode (h : Header) : h.encode.size = 52 := by
  simp [encode]

theorem read_of_placed {h : Header} (fits : h.Fits) (p : Placed data 0 h.encode) :
    Header.read data = .ok h := by
  have long : ¬data.size < length := by
    have room := p.fits
    rw [size_encode] at room
    unfold length
    omega
  simp only [encode, join_cons, placed_append, size_ofByte, size_ofHalf, size_ofWord,
    Nat.reduceAdd] at p
  obtain ⟨mark, small, little, -, -, -, -, machine, -, entry, programs, sections, -, -, stride,
    count, stride', count', -⟩ := p
  rw [Header.read, if_neg long, mark.word?, small.byte?, little.byte?,
    count_of_placed fits.machine machine, word_of_placed entry,
    size_of_placed fits.programOffset programs, size_of_placed fits.sectionOffset sections,
    count_of_placed fits.programStride stride, count_of_placed fits.programCount count,
    count_of_placed fits.sectionStride stride', count_of_placed fits.sectionCount count']
  rfl

end Header

/-! ### Program headers and section headers -/

namespace ProgramHeader

structure Fits (p : ProgramHeader) : Prop where
  offset : p.offset < 2 ^ 32
  fileSize : p.fileSize < 2 ^ 32
  memorySize : p.memorySize < 2 ^ 32

def encode (p : ProgramHeader) : ByteArray := join [
  ofWord p.kind, ofWord (.ofNat 32 p.offset), ofWord p.address, ofWord p.address,
  ofWord (.ofNat 32 p.fileSize), ofWord (.ofNat 32 p.memorySize), ofWord p.flags, ofWord 4]

theorem size_encode (p : ProgramHeader) : p.encode.size = 32 := by
  simp [encode]

theorem read_of_placed {p : ProgramHeader} (fits : p.Fits) (h : Placed data i p.encode) :
    ProgramHeader.read data i = .ok p := by
  have long : ¬data.size < i + length := by
    have room := h.fits
    rw [size_encode] at room
    unfold length
    omega
  simp only [encode, join_cons, placed_append, size_ofWord, Nat.add_assoc, Nat.reduceAdd] at h
  obtain ⟨kind, offset, address, -, fileSize, memorySize, flags, -⟩ := h
  rw [ProgramHeader.read, if_neg long, word_of_placed kind, size_of_placed fits.offset offset,
    word_of_placed address, size_of_placed fits.fileSize fileSize,
    size_of_placed fits.memorySize memorySize, word_of_placed flags]
  rfl

end ProgramHeader

namespace Section

structure Fits (s : Section) : Prop where
  offset : s.offset < 2 ^ 32
  size : s.size < 2 ^ 32
  link : s.link < 2 ^ 32

def encode (s : Section) : ByteArray := join [
  ofWord 0, ofWord s.kind, ofWord 0, ofWord 0, ofWord (.ofNat 32 s.offset),
  ofWord (.ofNat 32 s.size), ofWord (.ofNat 32 s.link), ofWord 1, ofWord 4, ofWord 16]

theorem size_encode (s : Section) : s.encode.size = 40 := by
  simp [encode]

theorem read_of_placed {s : Section} (fits : s.Fits) (h : Placed data i s.encode) :
    Section.read data i = .ok s := by
  have long : ¬data.size < i + length := by
    have room := h.fits
    rw [size_encode] at room
    unfold length
    omega
  simp only [encode, join_cons, placed_append, size_ofWord, Nat.add_assoc, Nat.reduceAdd] at h
  obtain ⟨-, kind, -, -, offset, size, link, -⟩ := h
  rw [Section.read, if_neg long, word_of_placed kind, size_of_placed fits.offset offset,
    size_of_placed fits.size size, size_of_placed fits.link link]
  rfl

end Section

/-! ### Symbol records -/

namespace Symbol

/-- The bytes of a symbol's record: the offset of its name, its value and size, its type and
visibility, and the section it is defined in. -/
def record (name : Nat) (value size : Word) (info other : UInt8) (place : BitVec 16) : ByteArray :=
  join [ofWord (.ofNat 32 name), ofWord value, ofWord size, ofByte info, ofByte other, ofHalf place]

theorem size_record (name : Nat) (value size : Word) (info other : UInt8) (place : BitVec 16) :
    (record name value size info other place).size = 16 := by
  simp [record]

theorem read_of_placed {names : ByteArray} {name : Nat} {value size : Word} {info other : UInt8}
    {place : BitVec 16} (fits : name < 2 ^ 32)
    (h : Placed data i (record name value size info other place)) :
    Symbol.read data names i =
      match kindOf info with
      | none => .ok none
      | some kind =>
        if place = 0 then .ok none
        else (nameAt names name).map fun s =>
          if Proper s then some (make s value size kind) else none := by
  have undefined : place.toNat = 0 ↔ place = 0 := BitVec.toNat_inj (y := 0)
  simp only [record, join_cons, placed_append, size_ofByte, size_ofWord, Nat.add_assoc,
    Nat.reduceAdd] at h
  obtain ⟨offset, value', size', info', -, place', -⟩ := h
  rw [Symbol.read, size_of_placed fits offset, word_of_placed value', word_of_placed size',
    info'.byte?, half_of_placed place']
  change (match kindOf info with | none => _ | some kind => _) = _
  cases kindOf info with
  | none => rfl
  | some kind =>
    simp only [undefined]
    rfl

end Symbol

end Disarm.Elf
