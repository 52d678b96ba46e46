import Disarm.Proofs.Encoding
import Disarm.Proofs.ProgramHeaders
/-!
How much memory the segments of code take. The limit holds for each of them, and headers may lie
over one another, so that what a file can ask for grows with the number of its headers and not with
its own size. Main statement: the segments of code of a file take what its headers ask for, at most the
limit for each of them, and 84 bytes are enough to take as much.
-/

namespace Disarm

def Segment.codeSize (l : List Segment) : Nat :=
  ((l.filter (·.executable)).map (·.data.size)).sum

theorem Segment.codeSize_cons (s : Segment) (l : List Segment) :
    codeSize (s :: l) = (if s.executable then s.data.size else 0) + codeSize l := by
  unfold codeSize
  rw [List.filter_cons]
  split
  · rfl
  · exact (Nat.zero_add _).symm

namespace Elf

open Bytes Segment

/-! ### The limit -/

theorem ProgramHeader.size_le_of_segment {data : ByteArray} {p : ProgramHeader} {s : Segment}
    (h : p.segment data = .ok s) (code : p.executable = true) : p.size ≤ maxSize := by
  obtain ⟨bytes, -, h⟩ := bind_eq_ok.1 h
  rw [if_pos code] at h
  by_cases large : maxSize < max p.memorySize p.fileSize
  · simp only [if_pos large] at h
    cases h
  · exact Nat.le_of_not_lt large

/-- One program header makes at most one segment, and that is within the limit if it is code. -/
theorem codeSize_le_of_segmentAt {data : ByteArray} {i : Nat} {o : Option Segment}
    (h : segmentAt data i = .ok o) : codeSize o.toList ≤ maxSize := by
  obtain ⟨p, -, h⟩ := bind_eq_ok.1 h
  by_cases loaded : p.Loaded
  · rw [if_pos loaded] at h
    obtain ⟨s, hs, h⟩ := bind_eq_ok.1 h
    cases h
    obtain ⟨rfl, fits⟩ := ProgramHeader.segment_eq_ok hs
    rw [Option.toList_some, codeSize_cons]
    change (if p.executable = true then _ else 0) + 0 ≤ _
    by_cases code : p.executable = true
    · rw [if_pos code, ProgramHeader.size_described fits code]
      exact ProgramHeader.size_le_of_segment hs code
    · rw [if_neg code]
      exact Nat.zero_le _
  · rw [if_neg loaded] at h
    cases h
    exact Nat.zero_le _

theorem codeSize_le_of_mapM {data : ByteArray} {place : Nat → Nat} {l : List Nat}
    {found : List (Option Segment)} (h : l.mapM (fun i => segmentAt data (place i)) = .ok found) :
    codeSize (found.filterMap id) ≤ l.length * maxSize := by
  induction l generalizing found with
  | nil =>
    cases h
    exact Nat.zero_le _
  | cons i l ih =>
    rw [List.mapM_cons] at h
    obtain ⟨o, ho, h⟩ := bind_eq_ok.1 h
    obtain ⟨rest, hrest, h⟩ := bind_eq_ok.1 h
    cases h
    have first := codeSize_le_of_segmentAt ho
    have others := ih hrest
    rw [List.length_cons, Nat.succ_mul]
    cases o with
    | none =>
      rw [List.filterMap_cons_none rfl]
      omega
    | some s =>
      rw [Option.toList_some, codeSize_cons] at first
      rw [List.filterMap_cons_some (f := id) rfl, codeSize_cons]
      change _ + 0 ≤ _ at first
      omega

theorem codeSize_le_of_loadedSegments {data : ByteArray} {h : Header} {l : List Segment}
    (loaded : loadedSegments data h = .ok l) : codeSize l ≤ h.programCount * maxSize := by
  obtain ⟨found, hfound, e⟩ := bind_eq_ok.1 loaded
  cases e
  have bound := codeSize_le_of_mapM hfound
  rwa [List.length_range] at bound

theorem half_lt {data : ByteArray} {i n : Nat} (h : half data i = .ok n) : n < 2 ^ 16 := by
  obtain ⟨x, -, hx⟩ := bind_eq_ok.1 h
  cases hx
  exact x.isLt

theorem Header.programCount_lt {data : ByteArray} {h : Header} (read : Header.read data = .ok h) :
    h.programCount < 2 ^ 16 := by
  simp only [Header.read] at read
  iterate 4
    split at read
    · cases read
  -- The count is the sixth of the eight fields.
  iterate 5 obtain ⟨_, -, read⟩ := bind_eq_ok.1 read
  obtain ⟨n, hn, read⟩ := bind_eq_ok.1 read
  iterate 2 obtain ⟨_, -, read⟩ := bind_eq_ok.1 read
  cases read
  exact half_lt hn

/-! ### One header read again and again -/

/-- A file header that has the program header behind it read `n` times. -/
def repeatedHeader (n : Nat) : Header where
  entry := 0x8000
  machine := armMachine
  programOffset := 52
  programStride := 0
  programCount := n
  sectionOffset := 0
  sectionStride := 0
  sectionCount := 0

def emptyCode : ProgramHeader where
  kind := 1
  offset := 0
  address := 0x8000
  fileSize := 0
  memorySize := maxSize
  flags := 5

def repeated (n : Nat) : ByteArray := join [(repeatedHeader n).encode, emptyCode.encode]

theorem size_repeated (n : Nat) : (repeated n).size = 84 := by
  simp [repeated, ByteArray.size_append, Header.size_encode, ProgramHeader.size_encode]

theorem codeSize_replicate {s : Segment} (code : s.executable = true) (n : Nat) :
    codeSize (List.replicate n s) = n * s.data.size := by
  induction n with
  | zero => exact (Nat.zero_mul _).symm
  | succ n ih =>
    rw [List.replicate_succ, codeSize_cons, if_pos code, ih, Nat.succ_mul, Nat.add_comm]

theorem fits_repeatedHeader {n : Nat} (h : n < 2 ^ 16) : (repeatedHeader n).Fits where
  machine := (by decide : 40 < 2 ^ 16)
  programOffset := (by decide : 52 < 2 ^ 32)
  programStride := (by decide : 0 < 2 ^ 16)
  programCount := h
  sectionOffset := (by decide : 0 < 2 ^ 32)
  sectionStride := (by decide : 0 < 2 ^ 16)
  sectionCount := (by decide : 0 < 2 ^ 16)

theorem placed_repeated (n : Nat) :
    Placed (repeated n) 0 (repeatedHeader n).encode ∧ Placed (repeated n) 52 emptyCode.encode := by
  have all : Placed (repeated n) 0 (join _) := placed_self (repeated n)
  simp only [join_cons, placed_append, Header.size_encode, Nat.zero_add] at all
  obtain ⟨header, program, -⟩ := all
  exact ⟨header, program⟩

theorem segmentAt_repeated (n : Nat) :
    segmentAt (repeated n) 52 = .ok (some (emptyCode.described (repeated n))) := by
  have fits : emptyCode.Fits := by constructor <;> decide
  have read := ProgramHeader.read_of_placed fits (placed_repeated n).2
  exact segmentAt_of_fits read rfl (Nat.zero_le _) fun _ => by decide

theorem loadedSegments_repeated (n : Nat) : loadedSegments (repeated n) (repeatedHeader n) =
    .ok (List.replicate n (emptyCode.described (repeated n))) := by
  -- The stride is zero, so every turn of the loop reads the header at 52.
  have turns := mapM_range'_eq_ok (j := 0)
    (f := fun i => segmentAt (repeated n) (52 + i * 0))
    (l := List.replicate n (some (emptyCode.described (repeated n)))) fun i o ho => by
      rw [List.eq_of_mem_replicate (List.mem_of_getElem? ho)]
      exact segmentAt_repeated n
  rw [List.length_replicate, ← List.range_eq_range'] at turns
  refine bind_eq_ok.2 ⟨_, turns, ?_⟩
  rw [List.filterMap_replicate_of_some (f := id) rfl]
  rfl

theorem ofBytes_repeated {n : Nat} (h : n < 2 ^ 16) : File.ofBytes (repeated n) =
    .ok ⟨0x8000, armMachine, List.replicate n (emptyCode.described (repeated n)), []⟩ := by
  have read := Header.read_of_placed (fits_repeatedHeader h) (placed_repeated n).1
  have noSections : sectionsOf (repeated n) (repeatedHeader n) = .ok [] := rfl
  have noSymbols : definedSymbols (repeated n) [] = .ok [] := rfl
  exact bind_eq_ok.2 ⟨_, read, bind_eq_ok.2 ⟨_, loadedSegments_repeated n,
    bind_eq_ok.2 ⟨_, noSections, bind_eq_ok.2 ⟨_, noSymbols, rfl⟩⟩⟩⟩

/-- 84 bytes can ask for as much as there are headers. -/
theorem codeSize_repeated {n : Nat} (h : n < 2 ^ 16) :
    (repeated n).size = 84 ∧
      ∃ f, File.ofBytes (repeated n) = .ok f ∧ codeSize f.segments = n * maxSize := by
  have code : emptyCode.executable = true := by decide
  refine ⟨size_repeated n, _, ofBytes_repeated h, ?_⟩
  rw [codeSize_replicate code, ProgramHeader.size_described (Nat.zero_le _) code]
  rfl

/-! ### What a file asks for -/

def demand (l : List ProgramHeader) : Nat := ((l.filter (·.IsCode)).map (·.size)).sum

theorem codeSize_eq_demand {data : ByteArray} {h : Header} {l : List Segment}
    (loaded : loadedSegments data h = .ok l) :
    ∃ headers, programHeaders data h = .ok headers ∧ codeSize l = demand headers := by
  obtain ⟨headers, hheaders, fits, rfl⟩ := loadedSegments_eq_ok loaded
  refine ⟨headers, hheaders, ?_⟩
  unfold codeSize demand
  rw [filter_described, List.map_map]
  refine congrArg List.sum (List.map_congr_left fun p hp => ?_)
  obtain ⟨mem, code⟩ := List.mem_filter.1 hp
  obtain ⟨loaded, executable⟩ := of_decide_eq_true code
  exact ProgramHeader.size_described (fits p mem loaded) executable

/-- The segments of code of a file take what its headers of code ask for, which is at most the limit
for each program header. So four times the limit is kept exactly where the sizes in the headers keep
it, and always with up to four headers. -/
theorem codeSize_le_iff {data : ByteArray} {f : File} (hf : File.ofBytes data = .ok f) :
    ∃ h l, Header.read data = .ok h ∧ programHeaders data h = .ok l ∧ h.programCount < 2 ^ 16 ∧
      codeSize f.segments = demand l ∧ codeSize f.segments ≤ h.programCount * maxSize ∧
      (codeSize f.segments ≤ 4 * maxSize ↔ demand l ≤ 4 * maxSize) ∧
      (h.programCount ≤ 4 → codeSize f.segments ≤ 4 * maxSize) := by
  obtain ⟨h, hh, rest⟩ := bind_eq_ok.1 hf
  obtain ⟨segments, hsegments, rest⟩ := bind_eq_ok.1 rest
  obtain ⟨sections, -, rest⟩ := bind_eq_ok.1 rest
  obtain ⟨symbols, -, rest⟩ := bind_eq_ok.1 rest
  cases rest
  obtain ⟨l, hl, taken⟩ := codeSize_eq_demand hsegments
  have bound := codeSize_le_of_loadedSegments hsegments
  refine ⟨h, l, hh, hl, Header.programCount_lt hh, taken, bound, ?_, fun few => ?_⟩
  · rw [taken]
  · exact bound.trans (Nat.mul_le_mul_right maxSize few)

theorem codeSize_le_repeated_four : ∃ f h l, File.ofBytes (repeated 4) = .ok f ∧
    programHeaders (repeated 4) h = .ok l ∧ demand l = 4 * maxSize ∧
    codeSize f.segments ≤ 4 * maxSize := by
  obtain ⟨-, f, hf, size⟩ := codeSize_repeated (n := 4) (by decide)
  obtain ⟨h, l, -, hl, -, taken, -, kept, -⟩ := codeSize_le_iff hf
  have asked : demand l = 4 * maxSize := taken.symm.trans size
  exact ⟨f, h, l, hf, hl, asked, kept.2 asked.le⟩

/-- Four times the limit is no bound: five headers take more. -/
theorem not_codeSize_le : ¬∀ data f, File.ofBytes data = .ok f →
    codeSize f.segments ≤ 4 * maxSize := by
  intro bound
  obtain ⟨-, f, hf, size⟩ := codeSize_repeated (n := 5) (by decide)
  have taken := bound _ f hf
  rw [size] at taken
  exact absurd taken (by decide)

end Elf

end Disarm
