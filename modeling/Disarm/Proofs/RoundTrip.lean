import Disarm.Proofs.Encoding
import Disarm.Proofs.Names
import Disarm.Proofs.ProgramHeaders
/-!
Executables written and read back. An executable has one segment of code and a symbol table whose
names lie in a table of their own, each at the offset where the ones before it end. Main statement:
reading what is written gives the entry, the code and the symbols that have a place in a listing.
-/

namespace Disarm.Elf

open Bytes

/-! ### Symbols -/

/-- A symbol to be written. The lowest bit of a function's value marks Thumb code; the type is 1 for
an object and 2 for a function. -/
structure Declaration where
  name : String
  value : Word
  size : Word
  type : UInt8
deriving DecidableEq, Repr

namespace Declaration

/-- The symbol that a declaration stands for. Other types stand for none, and neither do an empty
name and one that starts with a dollar sign. -/
def symbol (d : Declaration) : Option Symbol :=
  if (d.type = 1 ∨ d.type = 2) ∧ d.name ≠ "" ∧ d.name.toList.head? ≠ some '$' then
    let thumb := d.type = 2 ∧ d.value.toNat % 2 = 1
    some {
      name := d.name
      address := if thumb then d.value &&& ~~~1 else d.value
      size := d.size
      kind := if d.type = 2 then .function else .object
      thumb := thumb }
  else none

/-- The record of a symbol with the offset of its name: global and defined in section 1. -/
def record (d : Declaration) (name : Nat) : ByteArray :=
  Symbol.record name d.value d.size (0x10 ||| d.type) 0 1

theorem low_nibble {t : UInt8} (h : t < 16) : (0x10 ||| t) &&& 0xf = t := by
  have cases : ∀ n < 16, (0x10 ||| UInt8.ofNat n) &&& 0xf = UInt8.ofNat n := by decide
  have value := cases t.toNat (UInt8.lt_iff_toNat_lt.1 h)
  rwa [UInt8.ofNat_toNat] at value

theorem odd_iff (v : Word) : v.bit 0 = true ↔ v.toNat % 2 = 1 := by
  rw [Word.bit, BitVec.getLsbD, Nat.testBit_zero, decide_eq_true_iff]

theorem symbol_eq {d : Declaration} (small : d.type < 16) :
    d.symbol = (Symbol.kindOf (0x10 ||| d.type)).bind fun kind =>
      if Symbol.Proper d.name then some (Symbol.make d.name d.value d.size kind) else none := by
  have two_ne_one : (2 : UInt8) ≠ 1 := by decide
  unfold symbol Symbol.kindOf Symbol.Proper Symbol.make
  rw [low_nibble small]
  by_cases function : d.type = 2
  · simp only [function, two_ne_one, odd_iff, if_true, or_true, true_and, Option.bind_some]
  · by_cases object : d.type = 1
    · simp [object, two_ne_one.symm]
    · simp [function, object]

/-- Where the record and the name stand, the declared symbol is read. -/
theorem read_of_placed {table names : ByteArray} {d : Declaration} {i name : Nat}
    (clean : '\x00' ∉ d.name.toList) (small : d.type < 16) (low : name < 2 ^ 32)
    (hr : Placed table i (d.record name)) (hn : Placed names name (Symbol.terminated d.name)) :
    Symbol.read table names i = .ok d.symbol := by
  rw [Symbol.read_of_placed low hr, symbol_eq small]
  cases Symbol.kindOf (0x10 ||| d.type) with
  | none => rfl
  | some kind =>
    have defined : ¬(1 : BitVec 16) = 0 := by decide
    simp only [if_neg defined, Symbol.nameAt_of_placed clean hn]
    rfl

end Declaration

/-! ### Tables -/

structure Tables where
  names : ByteArray := ofByte 0
  records : ByteArray := Symbol.record 0 0 0 0 0 0

namespace Tables

def add (t : Tables) (d : Declaration) : Tables where
  names := t.names ++ Symbol.terminated d.name
  records := t.records ++ d.record t.names.size

def ofList (l : List Declaration) : Tables := l.foldl add {}

variable {t : Tables} {l : List Declaration} {s : ByteArray} {i k : Nat}

theorem placed_names_foldl (h : Placed t.names i s) : Placed (l.foldl add t).names i s := by
  induction l generalizing t with
  | nil => exact h
  | cons d l ih => exact ih h.append

theorem placed_records_foldl (h : Placed t.records i s) : Placed (l.foldl add t).records i s := by
  induction l generalizing t with
  | nil => exact h
  | cons d l ih => exact ih h.append

theorem size_records_add (t : Tables) (d : Declaration) :
    (t.add d).records.size = t.records.size + 16 := by
  rw [add, ByteArray.size_append, Declaration.record, Symbol.size_record]

theorem size_records_foldl : (l.foldl add t).records.size = t.records.size + 16 * l.length := by
  induction l generalizing t with
  | nil => rfl
  | cons d l ih =>
    rw [List.foldl_cons, ih, size_records_add, List.length_cons]
    omega

/-- Every symbol has its record after those before it, and its name where the record says. -/
theorem exists_placed_foldl {d : Declaration} (h : l[k]? = some d) :
    ∃ name, Placed (l.foldl add t).records (t.records.size + 16 * k) (d.record name) ∧
      Placed (l.foldl add t).names name (Symbol.terminated d.name) := by
  induction l generalizing t k with
  | nil => cases h
  | cons e l ih =>
    cases k with
    | zero =>
      cases h
      -- What is added stands at the end, and stays there while the other symbols are added.
      have name : Placed (t.add d).names t.names.size (Symbol.terminated d.name) := placed_right
      have record : Placed (t.add d).records t.records.size (d.record t.names.size) := placed_right
      rw [List.foldl_cons]
      exact ⟨t.names.size, placed_records_foldl record, placed_names_foldl name⟩
    | succ k =>
      obtain ⟨name, hr, hn⟩ := ih (t := t.add e) h
      have start : (t.add e).records.size + 16 * k = t.records.size + 16 * (k + 1) := by
        rw [size_records_add]
        omega
      rw [start] at hr
      exact ⟨name, hr, hn⟩

end Tables

theorem Tables.mapM_read {l : List Declaration}
    (clean : ∀ d ∈ l, '\x00' ∉ d.name.toList) (small : ∀ d ∈ l, d.type < 16)
    (low : (ofList l).names.size < 2 ^ 32) :
    (List.range ((ofList l).records.size / Symbol.length)).mapM
        (fun k => Symbol.read (ofList l).records (ofList l).names (k * Symbol.length)) =
      .ok (none :: l.map Declaration.symbol) := by
  have count : (ofList l).records.size / Symbol.length =
      (none :: l.map Declaration.symbol).length := by
    rw [ofList, size_records_foldl, Symbol.size_record, List.length_cons, List.length_map,
      Symbol.length]
    omega
  rw [count, List.range_eq_range']
  refine mapM_range'_eq_ok fun k o ho => ?_
  rw [Nat.zero_add, Nat.mul_comm]
  cases k with
  | zero =>
    cases ho
    -- The null record is of no kind that is listed.
    have null : Placed (ofList l).records 0 (Symbol.record 0 0 0 0 0 0) :=
      placed_records_foldl (placed_self _)
    exact Symbol.read_of_placed (by decide) null
  | succ k =>
    rw [List.getElem?_cons_succ, List.getElem?_map, Option.map_eq_some_iff] at ho
    obtain ⟨d, hd, rfl⟩ := ho
    have mem := List.mem_of_getElem? hd
    obtain ⟨name, hr, hn⟩ := exists_placed_foldl (t := {}) hd
    have start : Symbol.length * (k + 1) = ({} : Tables).records.size + 16 * k := by
      rw [Symbol.size_record, Symbol.length]
      omega
    have bound : name < 2 ^ 32 := by
      have fits := hn.fits
      change _ ≤ (ofList l).names.size at fits
      omega
    rw [start]
    exact Declaration.read_of_placed (clean d mem) (small d mem) bound hr hn

/-! ### Executables -/

/-- What is written. -/
structure Executable where
  code : List Word
  entry : Addr
  symbols : List Declaration

namespace Executable

variable (x : Executable)

def text : ByteArray := ofWords x.code

def tables : Tables := .ofList x.symbols

def textOffset : Nat := 84

def recordsOffset : Nat := textOffset + x.text.size

def namesOffset : Nat := x.recordsOffset + x.tables.records.size

def sectionOffset : Nat := x.namesOffset + x.tables.names.size

def header : Header where
  entry := x.entry
  machine := armMachine
  programOffset := Header.length
  programStride := ProgramHeader.length
  programCount := 1
  sectionOffset := x.sectionOffset
  sectionStride := Section.length
  sectionCount := 3

def programHeader : ProgramHeader where
  kind := 1
  offset := textOffset
  address := 0x8000
  fileSize := x.text.size
  memorySize := x.text.size
  flags := 5

def nullSection : Section := ⟨0, 0, 0, 0⟩

def recordsSection : Section := ⟨2, x.recordsOffset, x.tables.records.size, 2⟩

def namesSection : Section := ⟨3, x.namesOffset, x.tables.names.size, 0⟩

def encode : ByteArray := join [
  x.header.encode, x.programHeader.encode, x.text, x.tables.records, x.tables.names,
  nullSection.encode, x.recordsSection.encode, x.namesSection.encode]

/-- What can be written so that it is read back. -/
structure Writable : Prop where
  code : 4 * x.code.length ≤ Segment.maxSize
  names : ∀ d ∈ x.symbols, '\x00' ∉ d.name.toList
  types : ∀ d ∈ x.symbols, d.type < 16
  size : x.encode.size < 2 ^ 32

variable {x}

theorem size_encode : x.encode.size = x.sectionOffset + 120 := by
  simp only [encode, join_cons, join_nil, ByteArray.size_append, ByteArray.size_empty,
    Header.size_encode, ProgramHeader.size_encode, Section.size_encode, sectionOffset, namesOffset,
    recordsOffset, textOffset]
  omega

theorem placed :
    Placed x.encode 0 x.header.encode ∧ Placed x.encode 52 x.programHeader.encode ∧
    Placed x.encode textOffset x.text ∧ Placed x.encode x.recordsOffset x.tables.records ∧
    Placed x.encode x.namesOffset x.tables.names ∧
    Placed x.encode x.sectionOffset nullSection.encode ∧
    Placed x.encode (x.sectionOffset + 40) x.recordsSection.encode ∧
    Placed x.encode (x.sectionOffset + 80) x.namesSection.encode := by
  have all : Placed x.encode 0 (join _) := placed_self x.encode
  simp only [join_cons, placed_append, Header.size_encode, ProgramHeader.size_encode,
    Section.size_encode, Nat.zero_add, Nat.reduceAdd] at all
  obtain ⟨header, program, text, records, names, null, section₁, section₂, -⟩ := all
  exact ⟨header, program, text, records, names, null, section₁, section₂⟩

section Written

variable (h : x.Writable)
include h

theorem sectionOffset_lt : x.sectionOffset < 2 ^ 32 := by
  have size := h.size
  rw [size_encode] at size
  omega

theorem fits_header : x.header.Fits where
  machine := (by decide : 40 < 2 ^ 16)
  programOffset := (by decide : 52 < 2 ^ 32)
  programStride := (by decide : 32 < 2 ^ 16)
  programCount := (by decide : 1 < 2 ^ 16)
  sectionOffset := sectionOffset_lt h
  sectionStride := (by decide : 40 < 2 ^ 16)
  sectionCount := (by decide : 3 < 2 ^ 16)

theorem size_text_le : x.text.size ≤ Segment.maxSize := by
  rw [text, size_ofWords]
  exact h.code

theorem fits_programHeader : x.programHeader.Fits := by
  have bound : Segment.maxSize < 2 ^ 32 := by decide
  have small : x.text.size < 2 ^ 32 := Nat.lt_of_le_of_lt (size_text_le h) bound
  exact ⟨(by decide : 84 < 2 ^ 32), small, small⟩

theorem loadedSegments_encode :
    loadedSegments x.encode x.header = .ok [⟨0x8000, ofWords x.code, true⟩] := by
  obtain ⟨-, program, text, -⟩ := x.placed
  have read := ProgramHeader.read_of_placed (fits_programHeader h) program
  have small : x.programHeader.size ≤ Segment.maxSize := by
    rw [ProgramHeader.size]
    exact Nat.max_le.2 ⟨size_text_le h, size_text_le h⟩
  have segment := segmentAt_of_fits read rfl text.fits fun _ => small
  have code : x.programHeader.executable = true := (by decide : (5 : Word).bit 0 = true)
  have bytes : x.encode.extract x.programHeader.offset
      (x.programHeader.offset + x.programHeader.fileSize) = ofWords x.code := text.extract_eq
  rw [ProgramHeader.described_of_full (Nat.le_refl _), bytes, code] at segment
  refine bind_eq_ok.2 ⟨[some ⟨0x8000, ofWords x.code, true⟩], ?_, rfl⟩
  have first : x.header.programOffset + 0 * x.header.programStride = 52 := rfl
  rw [show x.header.programCount = 1 from rfl, List.range_one, List.mapM_cons, first, segment]
  rfl

theorem sectionsOf_encode :
    sectionsOf x.encode x.header = .ok [nullSection, x.recordsSection, x.namesSection] := by
  obtain ⟨-, -, -, -, -, null, records, names⟩ := x.placed
  have bound := sectionOffset_lt h
  unfold sectionOffset namesOffset at bound
  have null := Section.read_of_placed (by constructor <;> decide) null
  have records : Section.read x.encode (x.sectionOffset + 40) = .ok x.recordsSection :=
    Section.read_of_placed ⟨by change x.recordsOffset < _; omega,
      by change x.tables.records.size < _; omega, (by decide : 2 < 2 ^ 32)⟩ records
  have names : Section.read x.encode (x.sectionOffset + 80) = .ok x.namesSection :=
    Section.read_of_placed ⟨by change x.recordsOffset + _ < _; omega,
      by change x.tables.names.size < _; omega, (by decide : 0 < 2 ^ 32)⟩ names
  rw [sectionsOf, List.range_eq_range']
  refine mapM_range'_eq_ok (l := [nullSection, x.recordsSection, x.namesSection])
    fun i s hs => ?_
  have stride : x.header.sectionStride = 40 := rfl
  rw [stride, Nat.zero_add]
  match i, hs with
  | 0, rfl => exact null
  | 1, rfl => exact records
  | 2, rfl => exact names

theorem definedSymbols_encode :
    definedSymbols x.encode [nullSection, x.recordsSection, x.namesSection] =
      .ok (x.symbols.filterMap Declaration.symbol) := by
  obtain ⟨-, -, -, records, names, -⟩ := x.placed
  have bound := sectionOffset_lt h
  have low : x.tables.names.size < 2 ^ 32 := by
    unfold sectionOffset at bound
    omega
  have table : tableSymbols x.encode [nullSection, x.recordsSection, x.namesSection]
      x.recordsSection = .ok (x.symbols.filterMap Declaration.symbol) := by
    have names' : x.namesSection.bytes x.encode .nameTable = .ok x.tables.names :=
      Region.need_eq_ok.2 names.slice?_eq
    have records' : x.recordsSection.bytes x.encode .symbolTable = .ok x.tables.records :=
      Region.need_eq_ok.2 records.slice?_eq
    refine bind_eq_ok.2 ⟨x.namesSection, rfl, bind_eq_ok.2 ⟨_, names', bind_eq_ok.2
      ⟨_, records', bind_eq_ok.2 ⟨_, Tables.mapM_read h.names h.types low, ?_⟩⟩⟩⟩
    rw [List.filterMap_cons_none rfl, List.filterMap_map]
    rfl
  have only : [nullSection, x.recordsSection, x.namesSection].filter (·.IsSymbolTable) =
      [x.recordsSection] := rfl
  refine bind_eq_ok.2 ⟨[x.symbols.filterMap Declaration.symbol], ?_, ?_⟩
  · rw [only, List.mapM_cons, table]
    rfl
  · rw [List.flatten_singleton]
    rfl

/-- Reading gives back what was written. -/
theorem ofBytes_encode :
    File.ofBytes x.encode = .ok {
      entry := x.entry
      machine := 40
      segments := [⟨0x8000, ofWords x.code, true⟩]
      symbols := x.symbols.filterMap Declaration.symbol } := by
  exact bind_eq_ok.2 ⟨_, Header.read_of_placed (fits_header h) x.placed.1, bind_eq_ok.2
    ⟨_, loadedSegments_encode h, bind_eq_ok.2 ⟨_, sectionsOf_encode h, bind_eq_ok.2
      ⟨_, definedSymbols_encode h, rfl⟩⟩⟩⟩

end Written

/-- Five words and symbols of every kind: functions, an object, a mark of code and Thumb code. -/
def sample : Executable where
  code := [0xe92d4010, 0xe3a00000, 0xeb000000, 0xe8bd8010, 0xe12fff1e]
  entry := 0x8000
  symbols := [⟨"main", 0x8000, 12, 2⟩, ⟨"helper", 0x8010, 4, 2⟩, ⟨"$a", 0x8000, 0, 0⟩,
    ⟨"", 0x8000, 0, 2⟩, ⟨"$d", 0x800c, 0, 1⟩, ⟨"größe", 0x800d, 4, 1⟩, ⟨"thumb_fn", 0x8101, 0, 2⟩]

theorem ofBytes_encode_sample : sample.Writable ∧ File.ofBytes sample.encode = .ok {
    entry := 0x8000
    machine := 40
    segments := [⟨0x8000, ofWords sample.code, true⟩]
    symbols := [⟨"main", 0x8000, 12, .function, false⟩, ⟨"helper", 0x8010, 4, .function, false⟩,
      ⟨"größe", 0x800d, 4, .object, false⟩, ⟨"thumb_fn", 0x8100, 0, .function, true⟩] } := by
  have writable : sample.Writable := by
    constructor <;> decide +kernel
  have symbols : sample.symbols.filterMap Declaration.symbol =
      [⟨"main", 0x8000, 12, .function, false⟩, ⟨"helper", 0x8010, 4, .function, false⟩,
        ⟨"größe", 0x800d, 4, .object, false⟩, ⟨"thumb_fn", 0x8100, 0, .function, true⟩] := by
    decide +kernel
  have read := ofBytes_encode writable
  rw [symbols] at read
  exact ⟨writable, read⟩

end Executable

end Disarm.Elf
