import Disarm.Elf.File
import Disarm.Proofs.Layout
import Mathlib.Data.List.Find
/-!
Program headers and the memory they describe. Main statement: the segments of a file that is read are
those its loaded headers describe, in header order, and the memory of its code can be told from the
headers and the bytes of the file.
-/

namespace Disarm.Elf

theorem bind_eq_ok {α β : Type} {x : Except Error α} {f : α → Except Error β} {b : β} :
    (x >>= f) = .ok b ↔ ∃ a, x = .ok a ∧ f a = .ok b := by
  constructor
  · intro h
    cases x with
    | error e => cases h
    | ok a => exact ⟨a, rfl, h⟩
  · rintro ⟨a, rfl, h⟩
    exact h

theorem mapM_range'_eq_ok {β : Type} {f : Nat → Except Error β} {l : List β} {j : Nat}
    (h : ∀ i b, l[i]? = some b → f (j + i) = .ok b) : (List.range' j l.length).mapM f = .ok l := by
  induction l generalizing j with
  | nil => rfl
  | cons b l ih =>
    have first : f j = .ok b := h 0 b rfl
    have rest : (List.range' (j + 1) l.length).mapM f = .ok l := by
      refine ih fun i c hc => ?_
      rw [Nat.add_assoc, Nat.add_comm 1 i]
      exact h (i + 1) c hc
    rw [List.length_cons, List.range'_succ, List.mapM_cons, first, rest]
    rfl

theorem Region.need_eq_ok {α : Type} {part : Region} {o : Option α} {a : α} :
    part.need o = .ok a ↔ o = some a := by
  cases o with
  | none => exact ⟨nofun, nofun⟩
  | some b => simp [need]

namespace ProgramHeader

/-- The bytes the segment has in memory, those of the file included. -/
def size (p : ProgramHeader) : Nat := max p.memorySize p.fileSize

def stop (p : ProgramHeader) : Nat := p.address.toNat + p.size

def IsCode (p : ProgramHeader) : Prop := p.Loaded ∧ p.executable = true

instance (p : ProgramHeader) : Decidable p.IsCode := inferInstanceAs (Decidable (_ ∧ _))

def Covers (p : ProgramHeader) (a : Nat) : Prop := p.address.toNat ≤ a ∧ a < p.stop

instance (p : ProgramHeader) (a : Nat) : Decidable (p.Covers a) := inferInstanceAs (Decidable (_ ∧ _))

/-- The byte at an address of the segment: the file's as far as it goes, and zero after that. -/
def byteAt (data : ByteArray) (p : ProgramHeader) (a : Nat) : UInt8 :=
  if a - p.address.toNat < p.fileSize then
    (Bytes.byte? data (p.offset + (a - p.address.toNat))).getD 0
  else 0

/-- The segment a header describes. Only code is filled up to its size in memory. -/
def described (data : ByteArray) (p : ProgramHeader) : Segment where
  address := p.address
  data := data.extract p.offset (p.offset + p.fileSize) ++
    Bytes.zeros (if p.executable then p.size - p.fileSize else 0)
  executable := p.executable

theorem segment_eq_ok {data : ByteArray} {p : ProgramHeader} {s : Segment}
    (h : p.segment data = .ok s) : s = p.described data ∧ p.offset + p.fileSize ≤ data.size := by
  obtain ⟨bytes, hb, h⟩ := bind_eq_ok.1 h
  have slice := Region.need_eq_ok.1 hb
  unfold Bytes.slice? at slice
  split at slice
  · next fits =>
    cases slice
    refine ⟨?_, fits⟩
    by_cases code : p.executable = true
    · simp only [if_pos code] at h
      split at h
      · cases h
      · cases h
        simp only [described, code]
        rfl
    · simp only [if_neg code] at h
      cases h
      have filler : Bytes.zeros 0 = ByteArray.empty := by
        rw [Bytes.zeros, if_pos rfl]
      simp only [described, if_neg code, filler, ByteArray.append_empty]
      rw [Bool.not_eq_true] at code
      rw [code]
  · cases slice

theorem segment_of_fits {data : ByteArray} {p : ProgramHeader}
    (fits : p.offset + p.fileSize ≤ data.size)
    (small : p.executable = true → p.size ≤ Segment.maxSize) :
    p.segment data = .ok (p.described data) := by
  have slice : Bytes.slice? data p.offset p.fileSize =
      some (data.extract p.offset (p.offset + p.fileSize)) := if_pos fits
  unfold segment
  rw [slice]
  change (if p.executable = true then _ else _) = _
  by_cases code : p.executable = true
  · have within : ¬Segment.maxSize < max p.memorySize p.fileSize := Nat.not_lt.2 (small code)
    simp only [if_neg within, described, code]
    rfl
  · have filler : Bytes.zeros 0 = ByteArray.empty := by
      rw [Bytes.zeros, if_pos rfl]
    simp only [if_neg code, described, filler, ByteArray.append_empty]
    rw [Bool.not_eq_true] at code
    rw [code]
    rfl

theorem described_of_full {data : ByteArray} {p : ProgramHeader} (full : p.memorySize ≤ p.fileSize) :
    p.described data =
      ⟨p.address, data.extract p.offset (p.offset + p.fileSize), p.executable⟩ := by
  have room : (if p.executable then p.size - p.fileSize else 0) = 0 := by
    rw [size, Nat.max_eq_right full, Nat.sub_self, ite_self]
  have none : Bytes.zeros 0 = ByteArray.empty := by
    rw [Bytes.zeros, if_pos rfl]
  rw [described, room, none, ByteArray.append_empty]

section Described

variable {data : ByteArray} {p : ProgramHeader} (fits : p.offset + p.fileSize ≤ data.size)
  (code : p.executable = true)
include fits code

theorem size_described : (p.described data).data.size = p.size := by
  simp only [described, if_pos code, ByteArray.size_append, ByteArray.size_extract,
    Bytes.size_zeros]
  unfold size
  omega

theorem covers_described (a : Nat) : (p.described data).Covers a ↔ p.Covers a := by
  unfold Segment.Covers Segment.stop Covers stop
  rw [size_described fits code]
  rfl

theorem byte?_described {a : Nat} (h : p.Covers a) :
    Bytes.byte? (p.described data).data (a - p.address.toNat) = some (p.byteAt data a) := by
  obtain ⟨above, below⟩ := h
  have file : (data.extract p.offset (p.offset + p.fileSize)).size = p.fileSize :=
    Bytes.size_extract_of_le fits
  simp only [described, if_pos code]
  rw [Bytes.byte?_append, file, byteAt]
  by_cases h : a - p.address.toNat < p.fileSize
  · rw [if_pos h, if_pos h, Bytes.byte?_extract, if_pos (by omega), Bytes.byte?_of_lt (by omega)]
    rfl
  · rw [if_neg h, if_neg h, Bytes.byte?_zeros, if_pos]
    unfold stop at below
    omega

end Described

end ProgramHeader

/-! ### The headers of a file -/

def programHeaders (data : ByteArray) (h : Header) : Except Error (List ProgramHeader) :=
  (List.range h.programCount).mapM fun i =>
    ProgramHeader.read data (h.programOffset + i * h.programStride)

theorem segmentAt_eq_ok {data : ByteArray} {i : Nat} {o : Option Segment}
    (h : segmentAt data i = .ok o) :
    ∃ p, ProgramHeader.read data i = .ok p ∧
      (p.Loaded → p.offset + p.fileSize ≤ data.size) ∧
      o = if p.Loaded then some (p.described data) else none := by
  obtain ⟨p, hp, h⟩ := bind_eq_ok.1 h
  refine ⟨p, hp, ?_⟩
  by_cases loaded : p.Loaded
  · rw [if_pos loaded] at h ⊢
    obtain ⟨s, hs, h⟩ := bind_eq_ok.1 h
    obtain ⟨rfl, fits⟩ := ProgramHeader.segment_eq_ok hs
    cases h
    exact ⟨fun _ => fits, rfl⟩
  · rw [if_neg loaded] at h ⊢
    cases h
    exact ⟨fun h => absurd h loaded, rfl⟩

theorem segmentAt_of_fits {data : ByteArray} {i : Nat} {p : ProgramHeader}
    (read : ProgramHeader.read data i = .ok p) (loaded : p.Loaded)
    (fits : p.offset + p.fileSize ≤ data.size)
    (small : p.executable = true → p.size ≤ Segment.maxSize) :
    segmentAt data i = .ok (some (p.described data)) := by
  rw [segmentAt, read]
  change (if p.Loaded then _ else _) = _
  rw [if_pos loaded, ProgramHeader.segment_of_fits fits small]
  rfl

theorem mapM_segmentAt {data : ByteArray} {place : Nat → Nat} {l : List Nat}
    {found : List (Option Segment)} (h : l.mapM (fun i => segmentAt data (place i)) = .ok found) :
    ∃ headers, l.mapM (fun i => ProgramHeader.read data (place i)) = .ok headers ∧
      (∀ p ∈ headers, p.Loaded → p.offset + p.fileSize ≤ data.size) ∧
      found.filterMap id =
        (headers.filter (·.Loaded)).map (ProgramHeader.described data) := by
  induction l generalizing found with
  | nil =>
    cases h
    exact ⟨[], rfl, nofun, rfl⟩
  | cons i l ih =>
    rw [List.mapM_cons] at h
    obtain ⟨o, ho, h⟩ := bind_eq_ok.1 h
    obtain ⟨rest, hrest, h⟩ := bind_eq_ok.1 h
    cases h
    obtain ⟨p, hp, fits, rfl⟩ := segmentAt_eq_ok ho
    obtain ⟨headers, hheaders, within, described⟩ := ih hrest
    refine ⟨p :: headers, ?_, List.forall_mem_cons.2 ⟨fits, within⟩, ?_⟩
    · rw [List.mapM_cons, hp, hheaders]
      rfl
    · by_cases loaded : p.Loaded
      · have kept : (p :: headers).filter (·.Loaded) = p :: headers.filter (·.Loaded) :=
          List.filter_cons_of_pos (by simpa using loaded)
        rw [if_pos loaded, kept, List.map_cons, ← described]
        rfl
      · have dropped : (p :: headers).filter (·.Loaded) = headers.filter (·.Loaded) :=
          List.filter_cons_of_neg (by simpa using loaded)
        rw [if_neg loaded, dropped, ← described]
        rfl

theorem loadedSegments_eq_ok {data : ByteArray} {h : Header} {l : List Segment}
    (loaded : loadedSegments data h = .ok l) :
    ∃ headers, programHeaders data h = .ok headers ∧
      (∀ p ∈ headers, p.Loaded → p.offset + p.fileSize ≤ data.size) ∧
      l = (headers.filter (·.Loaded)).map (ProgramHeader.described data) := by
  obtain ⟨found, hfound, e⟩ := bind_eq_ok.1 loaded
  cases e
  exact mapM_segmentAt hfound

theorem filter_described (data : ByteArray) (headers : List ProgramHeader) :
    ((headers.filter (·.Loaded)).map (ProgramHeader.described data)).filter (·.executable) =
      (headers.filter (·.IsCode)).map (ProgramHeader.described data) := by
  rw [List.filter_map, List.filter_filter]
  congr 1
  refine List.filter_congr fun p _ => ?_
  by_cases loaded : p.Loaded <;> simp [loaded, ProgramHeader.IsCode, ProgramHeader.described]

/-! ### Memory -/

/-- The byte at an address: that of the last header there, and zero if there is none. -/
def memoryByte (data : ByteArray) (l : List ProgramHeader) (a : Nat) : UInt8 :=
  match l.reverse.find? fun p => p.Covers a with
  | some p => p.byteAt data a
  | none => 0

def memoryWord (data : ByteArray) (l : List ProgramHeader) (a : Nat) : Word :=
  .ofBytes (memoryByte data l a) (memoryByte data l (a + 1)) (memoryByte data l (a + 2))
    (memoryByte data l (a + 3))

section Memory

variable {data : ByteArray} {l : List ProgramHeader}
  (fits : ∀ p ∈ l, p.offset + p.fileSize ≤ data.size) (code : ∀ p ∈ l, p.executable = true)
include fits code

theorem byteAt_described (a : Nat) :
    Segment.byteAt (l.map (ProgramHeader.described data)) a = memoryByte data l a := by
  have covers : ∀ p ∈ l.reverse,
      decide ((p.described data).Covers a) = decide (p.Covers a) := by
    intro p hp
    have hp := List.mem_reverse.1 hp
    exact decide_eq_decide.2 (ProgramHeader.covers_described (fits p hp) (code p hp) a)
  unfold Segment.byteAt Segment.lastAt memoryByte
  rw [← List.map_reverse, List.find?_map, Function.comp_def, List.find?_congr covers]
  cases found : l.reverse.find? fun p => p.Covers a with
  | none => rfl
  | some p =>
    have hp := List.mem_reverse.1 (List.mem_of_find?_eq_some found)
    have covered : p.Covers a := by simpa using List.find?_some found
    have byte := ProgramHeader.byte?_described (fits p hp) (code p hp) covered
    simp only [Option.map_some]
    change (Bytes.byte? (p.described data).data (a - p.address.toNat)).getD 0 = _
    rw [byte, Option.getD_some]

theorem wordAt_described (a : Nat) :
    Segment.wordAt (l.map (ProgramHeader.described data)) a = memoryWord data l a := by
  simp only [Segment.wordAt, memoryWord, byteAt_described fits code]

theorem stops_described :
    (l.map (ProgramHeader.described data)).map Segment.stop = l.map ProgramHeader.stop := by
  rw [List.map_map]
  refine List.map_congr_left fun p hp => ?_
  simp only [Function.comp_apply, Segment.stop,
    ProgramHeader.size_described (fits p hp) (code p hp)]
  rfl

end Memory

end Disarm.Elf
