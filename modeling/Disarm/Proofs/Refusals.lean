import Disarm.Proofs.SymbolTables
/-!
Files from end to end. The stages of reading a file are checked one after the other, so that the first
flaw of the first flawed stage decides, and what is not refused is what the records say. Main
statements: the segments of a file are those of its loaded program headers unless one of these is
flawed, and its symbols are those its tables list unless a table or a section header is flawed.
-/

namespace Disarm.Elf

def Error.OfProgramHeader : Error → Prop
  | .outOfBounds .programHeader | .outOfBounds .segmentData | .segmentTooLarge _ _ => True
  | _ => False

variable {data : ByteArray} {h : Header} {e : Error} {f : File}

/-! ### Segments -/

namespace ProgramHeader

/-- The segment of a loaded header: the bytes of the file, and for code zeros after them up to the
size in memory. -/
structure Fills (data : ByteArray) (p : ProgramHeader) (s : Segment) : Prop where
  fits : p.offset + p.fileSize ≤ data.size
  address : s.address = p.address
  executable : s.executable = p.executable
  size : s.data.size = if p.executable then max p.memorySize p.fileSize else p.fileSize
  file : ∀ k < p.fileSize, Bytes.byte? s.data k = Bytes.byte? data (p.offset + k)
  zero : ∀ k, p.fileSize ≤ k → k < s.data.size → Bytes.byte? s.data k = some 0

theorem fills_described {p : ProgramHeader} (fits : p.offset + p.fileSize ≤ data.size) :
    p.Fills data (p.described data) := by
  have width : (data.extract p.offset (p.offset + p.fileSize)).size = p.fileSize :=
    Bytes.size_extract_of_le fits
  have size : (p.described data).data.size =
      p.fileSize + if p.executable then p.size - p.fileSize else 0 := by
    rw [described, ByteArray.size_append, width, Bytes.size_zeros]
  have byte (k : Nat) : Bytes.byte? (p.described data).data k =
      if k < p.fileSize then Bytes.byte? data (p.offset + k)
      else Bytes.byte? (Bytes.zeros (if p.executable then p.size - p.fileSize else 0))
        (k - p.fileSize) := by
    rw [described, Bytes.byte?_append, width]
    split
    · next inside => rw [Bytes.byte?_extract, if_pos (by omega)]
    · rfl
  refine ⟨fits, rfl, rfl, ?_, ?_, ?_⟩
  · rw [size]
    unfold ProgramHeader.size
    split <;> omega
  · intro k hk
    rw [byte, if_pos hk]
  · intro k above below
    rw [size] at below
    rw [byte, if_neg (by omega), Bytes.byte?_zeros, if_pos (by omega)]

theorem Flaw.ofProgramHeader {i : Nat} (flaw : Flaw data i e) : e.OfProgramHeader := by
  cases flaw <;> trivial

end ProgramHeader

theorem exists_fills {l : List Segment} (read : loadedSegments data h = .ok l) :
    ∃ headers : List ProgramHeader,
      List.Forall₂ (fun i p => p.StandsAt data (h.programOffset + i * h.programStride))
        (List.range h.programCount) headers ∧
      List.Forall₂ (ProgramHeader.Fills data) (headers.filter (·.Loaded)) l := by
  obtain ⟨headers, hheaders, fits, rfl⟩ := loadedSegments_eq_ok read
  refine ⟨headers, (mapM_eq_ok.1 hheaders).imp fun _ _ => ProgramHeader.standsAt_of_read, ?_⟩
  apply List.forall₂_map_right_iff.2
  apply List.forall₂_same.2
  intro p hp
  obtain ⟨hp, loaded⟩ := List.mem_filter.1 hp
  exact ProgramHeader.fills_described (fits p hp (of_decide_eq_true loaded))

/-! ### Stages -/

theorem File.ofBytes_of_standsAt (sound : ∀ e, ¬Header.Flaw data e) (stands : h.StandsAt data) :
    File.ofBytes data = loadedSegments data h >>= fun segments =>
      sectionsOf data h >>= fun sections => definedSymbols data sections >>= fun symbols =>
        pure ⟨h.entry, h.machine, segments, symbols⟩ := by
  rw [File.ofBytes, Header.read_of_standsAt sound stands]
  rfl

theorem not_ofProgramHeader_of_symbols {l : List Section} (failed : definedSymbols data l = .error e) :
    ¬e.OfProgramHeader := by
  obtain ⟨s, -, flaw⟩ := (definedSymbols_eq_error.1 failed).exists_mem
  cases flaw <;> exact id

theorem not_ofProgramHeader_of_sections (failed : sectionsOf data h = .error e) :
    ¬e.OfProgramHeader := by
  obtain ⟨rfl, -⟩ := sectionsOf_eq_error.1 failed
  exact id

theorem File.ofBytes_eq_error_of_programHeader (sound : ∀ e, ¬Header.Flaw data e)
    (stands : h.StandsAt data) :
    loadedSegments data h = .error e ↔ File.ofBytes data = .error e ∧ e.OfProgramHeader := by
  rw [ofBytes_of_standsAt sound stands, bind_eq_error]
  constructor
  · intro failed
    obtain ⟨i, -, flaw⟩ := (loadedSegments_eq_error.1 failed).exists_mem
    exact ⟨.inl failed, flaw.ofProgramHeader⟩
  · rintro ⟨failed | ⟨segments, -, failed⟩, ofHeader⟩
    · exact failed
    · obtain failed | ⟨sections, -, failed⟩ := bind_eq_error.1 failed
      · exact absurd ofHeader (not_ofProgramHeader_of_sections failed)
      · obtain failed | ⟨symbols, -, failed⟩ := bind_eq_error.1 failed
        · exact absurd ofHeader (not_ofProgramHeader_of_symbols failed)
        · exact absurd failed pure_ne_error

/-- What is read has no flaw in its headers. -/
theorem File.sound_of_ofBytes (read : File.ofBytes data = .ok f) :
    ∃ h : Header, (∀ e, ¬Header.Flaw data e) ∧ h.StandsAt data ∧
      ∀ i < h.programCount, ∀ e,
        ¬ProgramHeader.Flaw data (h.programOffset + i * h.programStride) e := by
  have sound : ∀ e, ¬Header.Flaw data e := by
    intro e flaw
    rw [File.ofBytes, Header.read_of_flaw flaw] at read
    cases read
  obtain ⟨h, stands⟩ := Header.exists_standsAt_of_sound sound
  have none : ∀ e, ¬FirstFlaw
      (fun i => ProgramHeader.Flaw data (h.programOffset + i * h.programStride))
      (List.range h.programCount) e := by
    intro e first
    have failed := loadedSegments_eq_error.2 first
    obtain ⟨failed, -⟩ := (ofBytes_eq_error_of_programHeader sound stands).1 failed
    rw [read] at failed
    cases failed
  exact ⟨h, sound, stands, fun i hi => sound_of_not_firstFlaw none i (List.mem_range.2 hi)⟩

/-! ### Files -/

/-- The checks of the file header come first. After them the first flawed program header decides, and
if there is none the segments are those of the loaded headers. -/
theorem File.ofBytes_segments (data : ByteArray) :
    (∀ e, Header.Flaw data e → File.ofBytes data = .error e) ∧
    ((∀ e, ¬Header.Flaw data e) → ∃ h : Header, h.StandsAt data ∧
      (∀ e, FirstFlaw (fun i => ProgramHeader.Flaw data (h.programOffset + i * h.programStride))
          (List.range h.programCount) e ↔ File.ofBytes data = .error e ∧ e.OfProgramHeader) ∧
      ((∃ i ∈ List.range h.programCount, ∃ e,
          ProgramHeader.Flaw data (h.programOffset + i * h.programStride) e) →
        ∃ e, File.ofBytes data = .error e ∧ e.OfProgramHeader) ∧
      ∀ f, File.ofBytes data = .ok f → ∃ headers : List ProgramHeader,
        List.Forall₂ (fun i p => p.StandsAt data (h.programOffset + i * h.programStride))
          (List.range h.programCount) headers ∧
        List.Forall₂ (ProgramHeader.Fills data) (headers.filter (·.Loaded)) f.segments) := by
  constructor
  · intro e flaw
    rw [File.ofBytes, Header.read_of_flaw flaw]
    rfl
  · intro sound
    obtain ⟨h, stands⟩ := Header.exists_standsAt_of_sound sound
    refine ⟨h, stands, fun e => ?_, fun some => ?_, fun f read => ?_⟩
    · rw [← loadedSegments_eq_error]
      exact File.ofBytes_eq_error_of_programHeader sound stands
    · obtain ⟨e, first⟩ := exists_firstFlaw some
      have failed := loadedSegments_eq_error.2 first
      exact ⟨e, (File.ofBytes_eq_error_of_programHeader sound stands).1 failed⟩
    · rw [File.ofBytes_of_standsAt sound stands] at read
      obtain ⟨segments, loaded, read⟩ := bind_eq_ok.1 read
      obtain ⟨sections, -, read⟩ := bind_eq_ok.1 read
      obtain ⟨symbols, -, read⟩ := bind_eq_ok.1 read
      cases read
      exact exists_fills loaded

/-- A note whose bytes lie beyond the end, data with room behind it, code with more bytes in the file
than in memory, and code with fewer. -/
def mixed : ByteArray := Bytes.join [
  Header.encode {
    entry := 0x8000, machine := armMachine, programOffset := 52, programStride := 32
    programCount := 4, sectionOffset := 0, sectionStride := 0, sectionCount := 0 },
  ProgramHeader.encode ⟨4, 0xffffffff, 0, 0xffffffff, 0, 1⟩,
  ProgramHeader.encode ⟨1, 180, 0x1000, 4, 0x10000000, 4⟩,
  ProgramHeader.encode ⟨1, 180, 0x8000, 8, 4, 5⟩, ProgramHeader.encode ⟨1, 188, 0x8008, 4, 6, 1⟩,
  ⟨#[1, 2, 3, 4, 5, 6, 7, 8, 9, 10, 11, 12]⟩]

/-- Data keeps only the bytes of the file, and of code no byte of the file is lost. -/
theorem File.ofBytes_segments_mixed : ∃ f headers, (∀ e, ¬Header.Flaw mixed e) ∧
    File.ofBytes mixed = .ok f ∧ List.Forall₂ (ProgramHeader.Fills mixed) headers f.segments ∧
    f.segments.map (·.data) = [⟨#[1, 2, 3, 4]⟩, ⟨#[1, 2, 3, 4, 5, 6, 7, 8]⟩,
      ⟨#[9, 10, 11, 12, 0, 0]⟩] := by
  have segments : (File.ofBytes mixed).toOption.map (fun f => f.segments.map (·.data)) =
      some [⟨#[1, 2, 3, 4]⟩, ⟨#[1, 2, 3, 4, 5, 6, 7, 8]⟩, ⟨#[9, 10, 11, 12, 0, 0]⟩] := by
    decide +kernel
  cases read : File.ofBytes mixed with
  | error e =>
    rw [read] at segments
    cases segments
  | ok f =>
    rw [read] at segments
    obtain ⟨-, sound, -, -⟩ := File.sound_of_ofBytes read
    obtain ⟨h, -, -, -, filled⟩ := (File.ofBytes_segments mixed).2 sound
    obtain ⟨headers, -, fills⟩ := filled f read
    exact ⟨f, _, sound, rfl, fills, Option.some.inj segments⟩

/-- After the file header and the program headers the section headers are checked, and after them
the first flawed symbol table decides. If there is none the symbols are those the tables list. -/
theorem File.ofBytes_symbols (sound : ∀ e, ¬Header.Flaw data e) (stands : h.StandsAt data)
    (loaded : ∀ i < h.programCount, ∀ e,
      ¬ProgramHeader.Flaw data (h.programOffset + i * h.programStride) e) :
    (File.ofBytes data = .error (.outOfBounds .sectionHeader) ↔
      ∃ i < h.sectionCount, data.size < h.sectionOffset + i * h.sectionStride + 40) ∧
    ((∀ i < h.sectionCount, h.sectionOffset + i * h.sectionStride + 40 ≤ data.size) →
      ∃ sections : List Section,
        List.Forall₂ (fun i s => s.StandsAt data (h.sectionOffset + i * h.sectionStride))
          (List.range h.sectionCount) sections ∧
        (∀ e, File.ofBytes data = .error e ↔
          FirstFlaw (Section.TableFlaw data sections)
            (sections.filter fun s => s.IsSymbolTable) e) ∧
        ((∀ s ∈ sections, s.IsSymbolTable → ∀ e, ¬s.TableFlaw data sections e) →
          ∃ f tables, File.ofBytes data = .ok f ∧
            List.Forall₂ (Section.Lists data sections)
              (sections.filter fun s => s.IsSymbolTable) tables ∧
            f.symbols = tables.flatten ∧
            ∀ y ∈ f.symbols, y.kind = .function → y.address.toNat % 2 = 0)) := by
  obtain ⟨segments, hsegments⟩ := exists_loadedSegments loaded
  have stages := File.ofBytes_of_standsAt sound stands
  rw [hsegments, ok_bind] at stages
  rw [stages]
  constructor
  · rw [bind_eq_error, sectionsOf_eq_error]
    constructor
    · rintro (⟨-, short⟩ | ⟨sections, -, failed⟩)
      · exact short
      · obtain failed | ⟨symbols, -, failed⟩ := bind_eq_error.1 failed
        · obtain ⟨s, -, flaw⟩ := (definedSymbols_eq_error.1 failed).exists_mem
          cases flaw
        · exact absurd failed pure_ne_error
    · intro short
      exact .inl ⟨rfl, short⟩
  · intro fits
    obtain ⟨sections, hsections⟩ := exists_sectionsOf fits
    rw [hsections, ok_bind]
    refine ⟨sections, (mapM_eq_ok.1 hsections).imp fun _ _ => Section.standsAt_of_read, ?_, ?_⟩
    · intro e
      rw [← definedSymbols_eq_error, bind_eq_error]
      exact or_iff_left fun ⟨_, _, failed⟩ => pure_ne_error failed
    · intro whole
      obtain ⟨symbols, hsymbols⟩ := exists_definedSymbols whole
      obtain ⟨tables, lists, rfl⟩ := definedSymbols_eq_ok hsymbols
      rw [hsymbols, ok_bind]
      exact ⟨_, tables, rfl, lists, rfl, Section.even_of_lists lists⟩

/-- A loaded segment, and two symbol tables over one name table. In the first stand a Thumb function,
an undefined symbol with a name beyond the names, a mark, an object whose name goes on to their end,
and a part of a record; in the second a name that is no text. -/
def tabled : ByteArray := Bytes.join [
  Header.encode {
    entry := 0x8000, machine := armMachine, programOffset := 52, programStride := 32
    programCount := 1, sectionOffset := 84, sectionStride := 40, sectionCount := 3 },
  ProgramHeader.encode ⟨1, 0, 0x1000, 4, 4, 4⟩,
  Section.encode ⟨3, 204, 15, 0⟩, Section.encode ⟨2, 219, 69, 0⟩, Section.encode ⟨2, 288, 16, 0⟩,
  ⟨#[0]⟩, Symbol.terminated "main", Symbol.terminated "$a", ⟨#[0x78, 0xff, 0]⟩, "end".toUTF8,
  Symbol.record 1 0x8001 4 0x12 0 1, Symbol.record 99 0x8000 4 0x12 0 0,
  Symbol.record 6 0x8000 0 0x12 0 1, Symbol.record 12 0x9001 1 0x11 0 1, ⟨#[1, 2, 3, 4, 5]⟩,
  Symbol.record 9 0x8000 0 0x12 0 1]

/-- Of five records two are listed. -/
theorem File.ofBytes_symbols_tabled : ∃ (h : Header) (f : File) (sections : List Section)
    (tables : List (List Symbol)),
    (∀ e, ¬Header.Flaw tabled e) ∧ h.StandsAt tabled ∧
    (∀ i < h.programCount, ∀ e,
      ¬ProgramHeader.Flaw tabled (h.programOffset + i * h.programStride) e) ∧
    File.ofBytes tabled = .ok f ∧
    List.Forall₂ (Section.Lists tabled sections) (sections.filter fun s => s.IsSymbolTable) tables ∧
    tables.flatten =
      [⟨"main", 0x8000, 4, .function, true⟩, ⟨"end", 0x9001, 1, .object, false⟩] := by
  have symbols : (File.ofBytes tabled).toOption.map (·.symbols) =
      some [⟨"main", 0x8000, 4, .function, true⟩, ⟨"end", 0x9001, 1, .object, false⟩] := by
    decide +kernel
  cases read : File.ofBytes tabled with
  | error e =>
    rw [read] at symbols
    cases symbols
  | ok f =>
    rw [read] at symbols
    obtain ⟨h, sound, stands, loaded⟩ := File.sound_of_ofBytes read
    obtain ⟨short, rest⟩ := File.ofBytes_symbols sound stands loaded
    have fits : ∀ i < h.sectionCount,
        h.sectionOffset + i * h.sectionStride + 40 ≤ tabled.size := by
      intro i hi
      refine Nat.not_lt.1 fun beyond => ?_
      have failed := short.2 ⟨i, hi, beyond⟩
      rw [read] at failed
      cases failed
    obtain ⟨sections, -, flaws, listed⟩ := rest fits
    have none : ∀ e, ¬FirstFlaw (Section.TableFlaw tabled sections)
        (sections.filter fun s => s.IsSymbolTable) e := by
      intro e first
      have failed := (flaws e).2 first
      rw [read] at failed
      cases failed
    have whole : ∀ s ∈ sections, s.IsSymbolTable → ∀ e, ¬s.TableFlaw tabled sections e :=
      fun s hs isTable =>
        sound_of_not_firstFlaw none s (List.mem_filter.2 ⟨hs, decide_eq_true isTable⟩)
    obtain ⟨g, tables, read', lists, all, -⟩ := listed whole
    cases read.symm.trans read'
    exact ⟨h, f, sections, tables, sound, stands, loaded, rfl, lists,
      all.symm.trans (Option.some.inj symbols)⟩

end Disarm.Elf
