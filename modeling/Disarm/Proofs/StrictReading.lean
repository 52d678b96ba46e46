import Disarm.Proofs.Encoding
import Disarm.Proofs.Names
import Disarm.Proofs.ProgramHeaders
import Mathlib.Data.List.Forall2
/-!
Reading without a safety net. In a strict run every index, every range and every sum of offsets is
an operation that traps where it leaves its bytes or 64 bits, and fields are read only when they are
needed. Main statement: no strict run traps, and it ends as reading a file does; no file is refused
for a single field.
-/

namespace Disarm.Elf

open Bytes

/-! ### Strict runs -/

namespace Strict

/-- How a strict run ends without a result. -/
inductive Stop where
  | refused (e : Error)
  | trap
deriving DecidableEq, Repr

/-- A run in which accesses and sums may trap. -/
abbrev Run := Except Stop

variable {α : Type}

def require (c : Prop) [Decidable c] (e : Error) : Run Unit :=
  if c then .ok () else .error (.refused e)

def found (part : Region) : Option α → Run α
  | some a => .ok a
  | none => .error (.refused (.outOfBounds part))

def demand : Option α → Run α
  | some a => .ok a
  | none => .error .trap

/-- A number of 64 bits. -/
def fit (n : Nat) : Run Nat := if n < 2 ^ 64 then .ok n else .error .trap

def index (b : ByteArray) (i : Nat) : Run UInt8 := demand (byte? b i)

def range? (b : ByteArray) (i j : Nat) : Option ByteArray :=
  if i ≤ j ∧ j ≤ b.size then some (b.extract i j) else none

def range (b : ByteArray) (i j : Nat) : Run ByteArray := demand (range? b i j)

/-- Copies bytes over the first bytes of others; there must be as many. -/
def copyFront (b s : ByteArray) : Run ByteArray := do
  let room ← range b 0 s.size
  demand (if room.size = s.size then some (overlay b 0 s) else none)

def half (data : ByteArray) (i : Nat) : Run Nat := do
  let bytes ← found .field (range? data i (← fit (i + 2)))
  let low ← index bytes 0
  let high ← index bytes 1
  return (high.toBitVec ++ low.toBitVec).toNat

def word (data : ByteArray) (i : Nat) : Run Word := do
  let bytes ← found .field (range? data i (← fit (i + 4)))
  return .ofBytes (← index bytes 0) (← index bytes 1) (← index bytes 2) (← index bytes 3)

def size (data : ByteArray) (i : Nat) : Run Nat := return (← word data i).toNat

/-- A part of the file. A sum that does not fit is taken for one past the end. -/
def slice (part : Region) (data : ByteArray) (i len : Nat) : Run ByteArray :=
  found part (if i + len < 2 ^ 64 then range? data i (i + len) else none)

def header (data : ByteArray) : Run Header := do
  require (Header.length ≤ data.size) .tooSmall
  let mark ← range data 0 4
  require (mark.data = (ofWord Header.magic).data) .badMagic
  let wide ← index data 4
  require (wide = 1) .notElf32
  let order ← index data 5
  require (order = 1) .notLittleEndian
  return {
    machine := ← half data 18
    entry := ← word data 24
    programOffset := ← size data 28
    sectionOffset := ← size data 32
    programStride := ← half data 42
    programCount := ← half data 44
    sectionStride := ← half data 46
    sectionCount := ← half data 48 }

def segment (data : ByteArray) (p : ProgramHeader) : Run Segment := do
  let bytes ← slice .segmentData data p.offset p.fileSize
  if p.flags.bit 0 then
    let size := max p.memorySize p.fileSize
    require (size ≤ Segment.maxSize) (.segmentTooLarge p.address size)
    return ⟨p.address, ← copyFront (zeros size) bytes, true⟩
  else return ⟨p.address, bytes, false⟩

/-- The program header at an offset. Only of a loaded one more than the kind is read. -/
def loadedHeader (data : ByteArray) (start : Nat) : Run (Option ProgramHeader) := do
  let kind ← word data start
  if kind = 1 then
    return some {
      kind
      offset := ← size data (← fit (start + 4))
      address := ← word data (← fit (start + 8))
      fileSize := ← size data (← fit (start + 16))
      memorySize := ← size data (← fit (start + 20))
      flags := ← word data (← fit (start + 24)) }
  else return none

def segmentAt (data : ByteArray) (h : Header) (i : Nat) : Run (Option Segment) := do
  let start ← fit (h.programOffset + (← fit (i * h.programStride)))
  require ((← fit (start + ProgramHeader.length)) ≤ data.size) (.outOfBounds .programHeader)
  match ← loadedHeader data start with
  | some p => return some (← segment data p)
  | none => return none

def place (data : ByteArray) (h : Header) (i : Nat) : Run Nat := do
  let start ← fit (h.sectionOffset + (← fit (i * h.sectionStride)))
  require ((← fit (start + Section.length)) ≤ data.size) (.outOfBounds .sectionHeader)
  return start

def nameAt (names : ByteArray) (i : Nat) : Run String := do
  let tail ← found .symbolName (range? names i names.size)
  let text ← range tail 0 (zeroFrom tail 0)
  return (String.fromUTF8? text).getD ""

def symbol (names record : ByteArray) : Run (Option Symbol) := do
  let nameOffset ← size record 0
  let value ← word record 4
  let size ← word record 8
  let info ← index record 12
  let place ← half record 14
  match Symbol.kindOf info with
  | none => return none
  | some kind =>
    if place = 0 then return none
    else
      let name ← nameAt names nameOffset
      return if Symbol.Proper name then some (.make name value size kind) else none

def records (table : ByteArray) : List ByteArray :=
  (List.range (table.size / Symbol.length)).map fun k =>
    table.extract (k * Symbol.length) (k * Symbol.length + Symbol.length)

def symbolsAt (data : ByteArray) (places : List Nat) (start : Nat) : Run (List Symbol) := do
  let kind ← word data (← fit (start + 4))
  if kind = 2 then
    let link ← size data (← fit (start + 24))
    let other ← found .nameTableLink places[link]?
    let names ← slice .nameTable data
      (← size data (← fit (other + 16))) (← size data (← fit (other + 20)))
    let table ← slice .symbolTable data
      (← size data (← fit (start + 16))) (← size data (← fit (start + 20)))
    return (← (records table).mapM (symbol names)).filterMap id
  else return []

def file (data : ByteArray) : Run File := do
  let h ← header data
  let segments ← (List.range h.programCount).mapM (segmentAt data h)
  let places ← (List.range h.sectionCount).mapM (place data h)
  let symbols ← places.mapM (symbolsAt data places)
  return ⟨h.entry, h.machine, segments.filterMap id, symbols.flatten⟩

end Strict

/-! ### Agreement -/

section Agreement

variable {α β γ δ : Type}

/-- A strict run agrees with a reading: both end with related results, or both refuse the file for
the same reason, which is not a single field. -/
inductive Agrees (R : α → β → Prop) : Strict.Run α → Except Error β → Prop where
  | result {a : α} {b : β} (h : R a b) : Agrees R (.ok a) (.ok b)
  | refusal {e : Error} (h : e ≠ .outOfBounds .field) : Agrees R (.error (.refused e)) (.error e)

namespace Agrees

variable {R : α → β → Prop} {S : γ → δ → Prop} {x : Strict.Run α} {y : Except Error β}

theorem outside {part : Region} (hp : part ≠ .field) :
    Agrees R (.error (.refused (.outOfBounds part))) (.error (.outOfBounds part)) :=
  .refusal fun h => hp (Error.outOfBounds.inj h)

theorem mono {T : α → β → Prop} (h : Agrees R x y) (weaker : ∀ a b, R a b → T a b) :
    Agrees T x y := by
  cases h with
  | result h => exact .result (weaker _ _ h)
  | refusal h => exact .refusal h

theorem bind {f : α → Strict.Run γ} {g : β → Except Error δ} (h : Agrees R x y)
    (next : ∀ a b, R a b → Agrees S (f a) (g b)) : Agrees S (x >>= f) (y >>= g) := by
  cases h with
  | result h => exact next _ _ h
  | refusal h => exact .refusal h

theorem eq_ok {x : Strict.Run β} {b : β} (h : Agrees Eq x (.ok b)) : x = .ok b := by
  cases h with
  | result same => exact congrArg Except.ok same

theorem mapM {T : γ → δ → Prop} {f : γ → Strict.Run α} {g : δ → Except Error β} {l : List γ}
    {m : List δ} (related : List.Forall₂ T l m) (h : ∀ c d, T c d → Agrees R (f c) (g d)) :
    Agrees (List.Forall₂ R) (l.mapM f) (m.mapM g) := by
  induction related with
  | nil => exact .result .nil
  | cons first _ ih =>
    rw [List.mapM_cons, List.mapM_cons]
    exact (h _ _ first).bind fun _ _ hab => ih.bind fun _ _ rest => .result (.cons hab rest)

end Agrees

end Agreement

/-! ### Operations -/

namespace Strict

variable {α β : Type} {b s : ByteArray} {i j n : Nat}

theorem ok_bind (a : α) (f : α → Run β) : (.ok a >>= f) = f a := rfl

theorem fit_eq (h : n < 2 ^ 64) : fit n = .ok n := if_pos h

theorem range?_eq (le : i ≤ j) (within : j ≤ b.size) : range? b i j = some (b.extract i j) :=
  if_pos ⟨le, within⟩

theorem range_eq (le : i ≤ j) (within : j ≤ b.size) : range b i j = .ok (b.extract i j) := by
  rw [range, range?_eq le within]
  rfl

theorem index_eq (h : i < b.size) : index b i = .ok b[i] := by
  rw [index, byte?_of_lt h]
  rfl

theorem copyFront_zeros (h : s.size ≤ n) :
    copyFront (zeros n) s = .ok (s ++ zeros (n - s.size)) := by
  have room : (zeros n).size = n := size_zeros n
  have width : ((zeros n).extract 0 s.size).size = s.size := by
    rw [ByteArray.size_extract]
    omega
  rw [copyFront, range_eq (Nat.zero_le _) (by omega), ok_bind, if_pos width]
  refine congrArg Except.ok (ext_byte? fun k => ?_)
  rw [byte?_overlay (by omega), byte?_append, byte?_zeros, byte?_zeros]
  by_cases front : k < s.size
  · rw [if_pos (by omega), if_pos front, Nat.sub_zero]
  · rw [if_neg (by omega), if_neg front]
    exact if_congr (by omega) rfl rfl

end Strict

variable {data : ByteArray} {i j len : Nat}

theorem require_agrees {c d : Prop} [Decidable c] [Decidable d] {e : Error} {α β : Type}
    {R : α → β → Prop} {x : Strict.Run α} {y : Except Error β} (he : e ≠ .outOfBounds .field)
    (contrary : d ↔ ¬c) (h : c → Agrees R x y) :
    Agrees R (Strict.require c e >>= fun _ => x) (if d then .error e else y) := by
  unfold Strict.require
  by_cases passed : c
  · rw [if_pos passed, if_neg fun hd => contrary.1 hd passed]
    exact h passed
  · rw [if_neg passed, if_pos (contrary.2 passed)]
    exact .refusal he

/-! ### Fields -/

theorem exists_half (data : ByteArray) (i : Nat) (room : i + 2 ≤ data.size)
    (small : i + 2 < 2 ^ 64) :
    ∃ n < 2 ^ 16, Strict.half data i = .ok n ∧ half data i = .ok n := by
  have width : (data.extract i (i + 2)).size = 2 := size_extract_of_le room
  have same : half? data i = half? (data.extract i (i + 2)) 0 :=
    (placed_extract room).half?_eq (k := 0) (Nat.le_of_eq width.symm)
  rw [half, same, Strict.half, Strict.fit_eq small, Strict.ok_bind,
    Strict.range?_eq (Nat.le_add_right _ _) room]
  generalize data.extract i (i + 2) = bytes at width
  rw [half?, byte?_of_lt (by omega), byte?_of_lt (by omega)]
  refine ⟨(bytes[1].toBitVec ++ bytes[0].toBitVec).toNat, BitVec.isLt _, ?_, rfl⟩
  change (Strict.index bytes 0 >>= _) = _
  rw [Strict.index_eq (by omega), Strict.ok_bind, Strict.index_eq (by omega)]
  rfl

theorem exists_word (data : ByteArray) (i : Nat) (room : i + 4 ≤ data.size)
    (small : i + 4 < 2 ^ 64) :
    ∃ w, Strict.word data i = .ok w ∧ word data i = .ok w := by
  have width : (data.extract i (i + 4)).size = 4 := size_extract_of_le room
  have same : word? data i = word? (data.extract i (i + 4)) 0 :=
    (placed_extract room).word?_eq (k := 0) (Nat.le_of_eq width.symm)
  rw [word, same, Strict.word, Strict.fit_eq small, Strict.ok_bind,
    Strict.range?_eq (Nat.le_add_right _ _) room]
  generalize data.extract i (i + 4) = bytes at width
  rw [word?, byte?_of_lt (by omega), byte?_of_lt (by omega), byte?_of_lt (by omega),
    byte?_of_lt (by omega)]
  refine ⟨.ofBytes bytes[0] bytes[1] bytes[2] bytes[3], ?_, rfl⟩
  change (Strict.index bytes 0 >>= _) = _
  rw [Strict.index_eq (by omega), Strict.ok_bind, Strict.index_eq (by omega), Strict.ok_bind,
    Strict.index_eq (by omega), Strict.ok_bind, Strict.index_eq (by omega)]
  rfl

theorem exists_size (data : ByteArray) (i : Nat) (room : i + 4 ≤ data.size)
    (small : i + 4 < 2 ^ 64) :
    ∃ n < 2 ^ 32, Strict.size data i = .ok n ∧ size data i = .ok n := by
  obtain ⟨w, strict, plain⟩ := exists_word data i room small
  refine ⟨w.toNat, w.isLt, ?_, ?_⟩
  · rw [Strict.size, strict]
    rfl
  · rw [size, plain]
    rfl

theorem slice_agrees {part : Region} (hp : part ≠ .field) (hi : i < 2 ^ 32) (hlen : len < 2 ^ 32) :
    Agrees (fun a b => a = b ∧ b.size = len) (Strict.slice part data i len)
      (part.need (slice? data i len)) := by
  have small : i + len < 2 ^ 64 := by omega
  rw [Strict.slice, if_pos small]
  by_cases fits : i + len ≤ data.size
  · rw [Strict.range?_eq (Nat.le_add_right _ _) fits, slice?, if_pos fits]
    exact .result ⟨rfl, size_extract_of_le fits⟩
  · rw [Strict.range?, if_neg fun h => fits h.2, slice?, if_neg fits]
    exact .outside hp

/-! ### Records -/

theorem header_agrees :
    Agrees (fun a b => a = b ∧ b.Fits) (Strict.header data) (Header.read data) := by
  unfold Strict.header Header.read
  refine require_agrees nofun (by omega) fun long => ?_
  -- The check of the size covers the marks and every field below.
  have room : 52 ≤ data.size := long
  rw [Strict.range_eq (Nat.zero_le _) (by omega), Strict.ok_bind]
  have mark : (data.extract 0 4).data = (ofWord Header.magic).data ↔
      word? data 0 = some Header.magic := by
    rw [word?_eq_some_iff, ← ByteArray.ext_iff]
    constructor
    · intro h
      have front : Placed data 0 (data.extract 0 (0 + 4)) := placed_extract (by omega)
      exact h ▸ front
    · exact fun h => h.extract_eq
  refine require_agrees nofun (by rw [mark]) fun _ => ?_
  rw [Strict.index_eq (by omega), byte?_of_lt (by omega), Strict.ok_bind]
  refine require_agrees nofun (by rw [ne_eq, Option.some_inj]) fun _ => ?_
  rw [Strict.index_eq (by omega), byte?_of_lt (by omega), Strict.ok_bind]
  refine require_agrees nofun (by rw [ne_eq, Option.some_inj]) fun _ => ?_
  have half (i : Nat) (hi : i ≤ 50) := exists_half data i (by omega) (by omega)
  have size (i : Nat) (hi : i ≤ 48) := exists_size data i (by omega) (by omega)
  obtain ⟨machine, hm, sm, lm⟩ := half 18 (by decide)
  obtain ⟨entry, se, le⟩ := exists_word data 24 (by omega) (by omega)
  obtain ⟨programOffset, hp, sp, lp⟩ := size 28 (by decide)
  obtain ⟨sectionOffset, ho, so, lo⟩ := size 32 (by decide)
  obtain ⟨programStride, hps, sps, lps⟩ := half 42 (by decide)
  obtain ⟨programCount, hpc, spc, lpc⟩ := half 44 (by decide)
  obtain ⟨sectionStride, hss, sss, lss⟩ := half 46 (by decide)
  obtain ⟨sectionCount, hsc, ssc, lsc⟩ := half 48 (by decide)
  rw [sm, se, sp, so, sps, spc, sss, ssc, lm, le, lp, lo, lps, lpc, lss, lsc]
  exact .result ⟨rfl, hm, hp, hps, hpc, ho, hss, hsc⟩

theorem place_lt {offset count stride : Nat} (length : Nat) (ho : offset < 2 ^ 32)
    (hc : count < 2 ^ 16) (hs : stride < 2 ^ 16) (hi : i < count) (hl : length ≤ 40) :
    i * stride < 2 ^ 64 ∧ offset + i * stride < 2 ^ 64 ∧ offset + i * stride + length < 2 ^ 64 := by
  have product : i * stride ≤ 2 ^ 16 * 2 ^ 16 := Nat.mul_le_mul (by omega) (by omega)
  omega

theorem segment_agrees {p : ProgramHeader} (fits : p.Fits) :
    Agrees Eq (Strict.segment data p) (p.segment data) := by
  rw [Strict.segment, ProgramHeader.segment]
  refine (slice_agrees (by decide) fits.offset fits.fileSize).bind fun bytes same h => ?_
  obtain ⟨rfl, width⟩ := h
  by_cases code : p.executable = true
  · have bit : p.flags.bit 0 = true := code
    rw [if_pos code, if_pos bit]
    refine require_agrees nofun (Nat.not_le.symm) fun _ => ?_
    rw [Strict.copyFront_zeros (by omega), Strict.ok_bind, width]
    exact .result rfl
  · have bit : ¬p.flags.bit 0 = true := code
    rw [if_neg code, if_neg bit]
    exact .result rfl

theorem loadedHeader_agrees (room : i + 32 ≤ data.size) (small : i + 32 < 2 ^ 64) :
    Agrees (fun o p => p.Fits ∧ o = if p.Loaded then some p else none)
      (Strict.loadedHeader data i) (ProgramHeader.read data i) := by
  have long : ¬data.size < i + ProgramHeader.length := Nat.not_lt.2 room
  have word (k : Nat) (hk : k ≤ 28) := exists_word data (i + k) (by omega) (by omega)
  have size (k : Nat) (hk : k ≤ 28) := exists_size data (i + k) (by omega) (by omega)
  obtain ⟨kind, sk, lk⟩ := word 0 (by decide)
  obtain ⟨offset, ho, so, lo⟩ := size 4 (by decide)
  obtain ⟨address, sa, la⟩ := word 8 (by decide)
  obtain ⟨fileSize, hf, sf, lf⟩ := size 16 (by decide)
  obtain ⟨memorySize, hm, sm, lm⟩ := size 20 (by decide)
  obtain ⟨flags, sl, ll⟩ := word 24 (by decide)
  rw [Nat.add_zero] at sk lk
  -- Reading takes all six fields at once; a strict run stops after the kind if nothing is loaded.
  rw [ProgramHeader.read, if_neg long, lk, lo, la, lf, lm, ll, Strict.loadedHeader, sk,
    Strict.ok_bind]
  by_cases loaded : kind = 1
  · rw [if_pos loaded, Strict.fit_eq (by omega), Strict.ok_bind, so, Strict.ok_bind,
      Strict.fit_eq (by omega), Strict.ok_bind, sa, Strict.ok_bind, Strict.fit_eq (by omega),
      Strict.ok_bind, sf, Strict.ok_bind, Strict.fit_eq (by omega), Strict.ok_bind, sm,
      Strict.ok_bind, Strict.fit_eq (by omega), Strict.ok_bind, sl]
    exact .result ⟨⟨ho, hf, hm⟩, (if_pos loaded).symm⟩
  · rw [if_neg loaded]
    exact .result ⟨⟨ho, hf, hm⟩, (if_neg loaded).symm⟩

theorem segmentAt_agrees {h : Header} (fits : h.Fits) (hi : i < h.programCount) :
    Agrees Eq (Strict.segmentAt data h i)
      (segmentAt data (h.programOffset + i * h.programStride)) := by
  obtain ⟨product, sum, stop⟩ := place_lt 32 fits.programOffset fits.programCount
    fits.programStride hi (by decide)
  rw [Strict.segmentAt, Strict.fit_eq product, Strict.ok_bind, Strict.fit_eq sum, Strict.ok_bind]
  generalize h.programOffset + i * h.programStride = start at stop
  have total : Strict.fit (start + ProgramHeader.length) = .ok (start + 32) := Strict.fit_eq stop
  rw [total, Strict.ok_bind, segmentAt]
  by_cases inside : start + 32 ≤ data.size
  · have passed : Strict.require (start + 32 ≤ data.size) (.outOfBounds .programHeader) = .ok () :=
      if_pos inside
    rw [passed, Strict.ok_bind]
    refine (loadedHeader_agrees inside stop).bind fun o p h => ?_
    obtain ⟨numbers, rfl⟩ := h
    by_cases loaded : p.Loaded
    · rw [if_pos loaded, if_pos loaded]
      refine (segment_agrees numbers).bind fun a b same => ?_
      exact .result (congrArg some same)
    · rw [if_neg loaded, if_neg loaded]
      exact .result rfl
  · have failed : Strict.require (start + 32 ≤ data.size) (.outOfBounds .programHeader) =
        .error (.refused (.outOfBounds .programHeader)) := if_neg inside
    have short : data.size < start + ProgramHeader.length := Nat.lt_of_not_le inside
    rw [failed, ProgramHeader.read, if_pos short]
    exact .outside (by decide)

/-! ### Sections -/

/-- A place that has been collected: all fields of the section header can be read there. -/
structure Describes (data : ByteArray) (start : Nat) (s : Section) : Prop where
  small : start + 40 < 2 ^ 64
  kind : Strict.word data (start + 4) = .ok s.kind
  offset : Strict.size data (start + 16) = .ok s.offset
  size : Strict.size data (start + 20) = .ok s.size
  link : Strict.size data (start + 24) = .ok s.link
  fits : s.Fits

theorem place_agrees {h : Header} (fits : h.Fits) (hi : i < h.sectionCount) :
    Agrees (Describes data) (Strict.place data h i)
      (Section.read data (h.sectionOffset + i * h.sectionStride)) := by
  obtain ⟨product, sum, stop⟩ := place_lt 40 fits.sectionOffset fits.sectionCount
    fits.sectionStride hi (by decide)
  rw [Strict.place, Strict.fit_eq product, Strict.ok_bind, Strict.fit_eq sum, Strict.ok_bind]
  generalize h.sectionOffset + i * h.sectionStride = start at stop
  have total : Strict.fit (start + Section.length) = .ok (start + 40) := Strict.fit_eq stop
  rw [total, Strict.ok_bind]
  refine require_agrees nofun (by unfold Section.length; omega) fun room => ?_
  obtain ⟨kind, sk, lk⟩ := exists_word data (start + 4) (by omega) (by omega)
  have size (k : Nat) (hk : k ≤ 36) := exists_size data (start + k) (by omega) (by omega)
  obtain ⟨offset, ho, so, lo⟩ := size 16 (by decide)
  obtain ⟨length, hs, ss, ls⟩ := size 20 (by decide)
  obtain ⟨link, hl, sl, ll⟩ := size 24 (by decide)
  rw [lk, lo, ls, ll]
  exact .result ⟨stop, sk, so, ss, sl, ho, hs, hl⟩

/-! ### Symbols -/

theorem zeroFrom_extract {names : ByteArray} {i : Nat} (h : i ≤ names.size) (k : Nat) :
    zeroFrom names (i + k) = i + zeroFrom (names.extract i names.size) k := by
  have width : (names.extract i names.size).size = names.size - i := by
    rw [ByteArray.size_extract]
    omega
  have tail (k : Nat) (hk : i + k < names.size) :
      byte? (names.extract i names.size) k = byte? names (i + k) := by
    rw [byte?_extract, if_pos hk]
  -- Both scans take the same steps, `i` bytes apart.
  fun_induction zeroFrom (names.extract i names.size) k with
  | case1 k inside zero =>
    refine zeroFrom_of_zero ?_
    rw [← tail k (by omega), byte?_of_lt inside, zero]
  | case2 k inside nonzero ih =>
    have next : byte? names (i + k) ≠ some 0 := by
      rw [← tail k (by omega), byte?_of_lt inside]
      exact fun h => nonzero (Option.some.inj h)
    rw [zeroFrom_of_ne_zero (by omega) next, Nat.add_assoc, ih]
  | case3 k beyond =>
    rw [zeroFrom_of_size_le (by omega)]
    omega

theorem nameAt_agrees (names : ByteArray) (i : Nat) :
    Agrees Eq (Strict.nameAt names i) (Symbol.nameAt names i) := by
  rw [Strict.nameAt, Symbol.nameAt]
  by_cases inside : i ≤ names.size
  · have stop := zeroFrom_extract inside 0
    rw [Nat.add_zero] at stop
    have within : i + zeroFrom (names.extract i names.size) 0 ≤ names.size :=
      stop ▸ zeroFrom_le_size
    have found : Strict.found .symbolName (Strict.range? names i names.size) =
        .ok (names.extract i names.size) := by
      rw [Strict.range?_eq inside (Nat.le_refl _)]
      rfl
    have same : (names.extract i names.size).extract 0 (zeroFrom (names.extract i names.size) 0) =
        names.extract i (zeroFrom names i) := by
      rw [ByteArray.extract_extract, stop, Nat.add_zero, Nat.min_eq_left within]
    rw [found, Strict.ok_bind, Strict.range_eq (Nat.zero_le _) zeroFrom_le_size, Strict.ok_bind,
      same, if_pos inside]
    exact .result rfl
  · have missing : Strict.found .symbolName (Strict.range? names i names.size) =
        .error (.refused (.outOfBounds .symbolName)) := by
      rw [Strict.range?, if_neg fun h => inside h.1]
      rfl
    rw [missing, if_neg inside]
    exact .outside (by decide)

theorem read_of_part {table record names : ByteArray} (h : Placed table i record)
    (width : record.size = 16) : Symbol.read table names i = Symbol.read record names 0 := by
  have word (k : Nat) (hk : k ≤ 12) : word table (i + k) = word record (0 + k) := by
    rw [Elf.word, h.word?_eq (by omega), Elf.word, Nat.zero_add]
  have size (k : Nat) (hk : k ≤ 12) : size table (i + k) = size record (0 + k) := by
    rw [Elf.size, word k hk, Elf.size]
  have offset := size 0 (by decide)
  rw [Nat.add_zero] at offset
  have info : byte? table (i + 12) = byte? record (0 + 12) := h.byte 12 (by omega)
  have place : half table (i + 14) = half record (0 + 14) := by
    rw [Elf.half, h.half?_eq (by omega), Elf.half]
  rw [Symbol.read, offset, word 4 (by decide), word 8 (by decide), info, place]
  rfl

theorem symbol_agrees {record : ByteArray} (names : ByteArray) (width : record.size = 16) :
    Agrees Eq (Strict.symbol names record) (Symbol.read record names 0) := by
  obtain ⟨offset, ho, so, lo⟩ := exists_size record 0 (by omega) (by decide)
  obtain ⟨value, sv, lv⟩ := exists_word record (0 + 4) (by omega) (by decide)
  obtain ⟨size, ss, ls⟩ := exists_word record (0 + 8) (by omega) (by decide)
  obtain ⟨place, hp, sp, lp⟩ := exists_half record (0 + 14) (by omega) (by decide)
  have info : byte? record (0 + 12) = some record[12] := byte?_of_lt (by omega)
  have known : Strict.index record 12 = .ok record[12] := Strict.index_eq (by omega)
  rw [Nat.zero_add] at sv ss sp
  rw [Symbol.read, lo, lv, ls, info, lp, Strict.symbol, so, Strict.ok_bind, sv, Strict.ok_bind, ss,
    Strict.ok_bind, known, Strict.ok_bind, sp, Strict.ok_bind]
  change Agrees Eq _ (match Symbol.kindOf record[12] with | none => _ | some kind => _)
  cases Symbol.kindOf record[12] with
  | none => exact .result rfl
  | some kind =>
    by_cases undefined : place = 0
    · simp only [if_pos undefined]
      exact .result rfl
    · simp only [if_neg undefined]
      exact (nameAt_agrees names offset).bind fun a b same => .result (by rw [same])

theorem tableSymbols_agrees (names table : ByteArray) :
    Agrees Eq ((Strict.records table).mapM (Strict.symbol names))
      ((List.range (table.size / Symbol.length)).mapM fun k =>
        Symbol.read table names (k * Symbol.length)) := by
  have cuts : List.Forall₂ (fun record k => Placed table (k * 16) record ∧ record.size = 16)
      (Strict.records table) (List.range (table.size / Symbol.length)) := by
    refine List.forall₂_map_left_iff.2 (List.forall₂_same.2 fun k hk => ?_)
    have count := List.mem_range.1 hk
    unfold Symbol.length at count ⊢
    have room : k * 16 + 16 ≤ table.size := by omega
    exact ⟨placed_extract room, size_extract_of_le room⟩
  refine (Agrees.mapM (R := Eq) cuts fun record k h => ?_).mono fun a b same => ?_
  · have part : Symbol.read table names (k * Symbol.length) = Symbol.read record names 0 :=
      read_of_part h.1 h.2
    rw [part]
    exact symbol_agrees names h.2
  · rwa [List.forall₂_eq_eq_eq] at same

theorem found_agrees {α β : Type} {R : α → β → Prop} {l : List α} {m : List β} {part : Region}
    (hp : part ≠ .field) (related : List.Forall₂ R l m) (k : Nat) :
    Agrees R (Strict.found part l[k]?) (part.need m[k]?) := by
  induction related generalizing k with
  | nil => exact .outside hp
  | cons first _ ih =>
    cases k with
    | zero => exact .result first
    | succ k => exact ih k

theorem symbolsAt_agrees {places : List Nat} {l : List Section}
    (related : List.Forall₂ (Describes data) places l) {start : Nat} {s : Section}
    (h : Describes data start s) :
    Agrees Eq (Strict.symbolsAt data places start)
      (if s.IsSymbolTable then tableSymbols data l s else .ok []) := by
  have small := h.small
  rw [Strict.symbolsAt, Strict.fit_eq (by omega), Strict.ok_bind, h.kind, Strict.ok_bind]
  by_cases table : s.IsSymbolTable
  · have kind : s.kind = 2 := table
    rw [if_pos table, if_pos kind, Strict.fit_eq (by omega), Strict.ok_bind, h.link, Strict.ok_bind,
      tableSymbols]
    -- The link leads to a place that has been collected, so its fields can be read too.
    refine (found_agrees (by decide) related s.link).bind fun other t ht => ?_
    have below := ht.small
    rw [Strict.fit_eq (by omega), Strict.ok_bind, ht.offset, Strict.ok_bind,
      Strict.fit_eq (by omega), Strict.ok_bind, ht.size, Strict.ok_bind]
    refine (slice_agrees (by decide) ht.fits.offset ht.fits.size).bind fun names names' hn => ?_
    obtain ⟨rfl, -⟩ := hn
    rw [Strict.fit_eq (by omega), Strict.ok_bind, h.offset, Strict.ok_bind,
      Strict.fit_eq (by omega), Strict.ok_bind, h.size, Strict.ok_bind]
    refine (slice_agrees (by decide) h.fits.offset h.fits.size).bind fun table table' ht => ?_
    obtain ⟨rfl, -⟩ := ht
    exact (tableSymbols_agrees names table).bind fun a b same => .result (by rw [same])
  · have kind : ¬s.kind = 2 := table
    rw [if_neg table, if_neg kind]
    exact .result rfl

theorem allSymbols_agree {places : List Nat} {l : List Section}
    (related : List.Forall₂ (Describes data) places l) {starts : List Nat} {m : List Section}
    (h : List.Forall₂ (Describes data) starts m) :
    Agrees (fun a b => a.flatten = b.flatten) (starts.mapM (Strict.symbolsAt data places))
      ((m.filter (·.IsSymbolTable)).mapM (tableSymbols data l)) := by
  induction h with
  | nil => exact .result rfl
  | @cons start s starts m first _ ih =>
    have here := symbolsAt_agrees related first
    rw [List.mapM_cons]
    by_cases table : s.IsSymbolTable
    · have kept : (s :: m).filter (·.IsSymbolTable) = s :: m.filter (·.IsSymbolTable) :=
        List.filter_cons_of_pos (by simpa using table)
      rw [if_pos table] at here
      rw [kept, List.mapM_cons]
      refine here.bind fun a b same => ih.bind fun _ _ rest => .result ?_
      rw [List.flatten_cons, List.flatten_cons, same, rest]
    · have dropped : (s :: m).filter (·.IsSymbolTable) = m.filter (·.IsSymbolTable) :=
        List.filter_cons_of_neg (by simpa using table)
      rw [if_neg table] at here
      rw [here.eq_ok, Strict.ok_bind, dropped,
        ← bind_pure ((m.filter (·.IsSymbolTable)).mapM (tableSymbols data l))]
      exact ih.bind fun _ _ rest => .result rest

/-! ### Files -/

theorem file_agrees (data : ByteArray) : Agrees Eq (Strict.file data) (File.ofBytes data) := by
  have same (n : Nat) : List.Forall₂ (fun i j => i = j ∧ i < n) (List.range n) (List.range n) :=
    List.forall₂_same.2 fun i hi => ⟨rfl, List.mem_range.1 hi⟩
  refine header_agrees.bind fun h h' hh => ?_
  obtain ⟨rfl, fits⟩ := hh
  rw [loadedSegments, bind_assoc]
  refine (Agrees.mapM (R := Eq) (same _) fun i j hi => ?_).bind fun segments segments' hs => ?_
  · obtain ⟨rfl, lt⟩ := hi
    exact segmentAt_agrees fits lt
  rw [List.forall₂_eq_eq_eq] at hs
  subst hs
  refine (Agrees.mapM (R := Describes data) (same _) fun i j hi => ?_).bind fun places l hl => ?_
  · obtain ⟨rfl, lt⟩ := hi
    exact place_agrees fits lt
  rw [definedSymbols, bind_assoc]
  exact (allSymbols_agree hl hl).bind fun a b hab => .result (by rw [hab])

/-- No access of a strict run lies outside of its bytes and no sum of offsets is too large, and the
run ends as reading the file does; the checks on whole records leave no field out of bounds. -/
theorem strict_file_eq (data : ByteArray) :
    Strict.file data ≠ .error .trap ∧
    Strict.file data = (File.ofBytes data).mapError .refused ∧
    File.ofBytes data ≠ .error (.outOfBounds .field) := by
  have agrees := file_agrees data
  generalize Strict.file data = x, File.ofBytes data = y at agrees
  cases agrees with
  | result h =>
    subst h
    exact ⟨nofun, rfl, nofun⟩
  | refusal h => exact ⟨nofun, rfl, fun e => h (Except.error.inj e)⟩

end Disarm.Elf
