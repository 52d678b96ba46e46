import Disarm.Proofs.Placement
import Disarm.Proofs.ProgramHeaders
import Mathlib.Data.List.Forall2
/-!
Flaws of headers. A flaw is told from the bytes of the file alone, and of several flaws in one record
a fixed one counts. Main statement: headers are refused just for their flaws, and a list of them for
its first flawed member.
-/

namespace Disarm.Elf

/-! ### The first flaw -/

section FirstFlaw

variable {α β : Type} {Flaw : α → Error → Prop} {a : α} {l : List α} {e : Error}

/-- A member of the list has the flaw, and those before it have none. -/
def FirstFlaw (Flaw : α → Error → Prop) (l : List α) (e : Error) : Prop :=
  ∃ before a after, l = before ++ a :: after ∧ (∀ b ∈ before, ∀ d, ¬Flaw b d) ∧ Flaw a e

theorem not_firstFlaw_nil : ¬FirstFlaw Flaw [] e := by
  rintro ⟨before, a, after, split, -⟩
  exact List.append_ne_nil_of_right_ne_nil before (List.cons_ne_nil a after) split.symm

theorem firstFlaw_cons :
    FirstFlaw Flaw (a :: l) e ↔ Flaw a e ∨ (∀ d, ¬Flaw a d) ∧ FirstFlaw Flaw l e := by
  constructor
  · rintro ⟨before, b, after, split, sound, flawed⟩
    cases before with
    | nil =>
      cases split
      exact .inl flawed
    | cons c before =>
      cases split
      obtain ⟨first, sound⟩ := List.forall_mem_cons.1 sound
      exact .inr ⟨first, before, b, after, rfl, sound, flawed⟩
  · rintro (flawed | ⟨first, before, b, after, rfl, sound, flawed⟩)
    · exact ⟨[], a, l, rfl, nofun, flawed⟩
    · exact ⟨a :: before, b, after, rfl, List.forall_mem_cons.2 ⟨first, sound⟩, flawed⟩

theorem FirstFlaw.exists_mem (h : FirstFlaw Flaw l e) : ∃ a ∈ l, Flaw a e := by
  obtain ⟨before, a, after, rfl, -, flawed⟩ := h
  exact ⟨a, by simp, flawed⟩

theorem exists_firstFlaw (h : ∃ a ∈ l, ∃ e, Flaw a e) : ∃ e, FirstFlaw Flaw l e := by
  induction l with
  | nil =>
    obtain ⟨a, ha, -⟩ := h
    cases ha
  | cons b l ih =>
    by_cases first : ∃ e, Flaw b e
    · obtain ⟨e, flawed⟩ := first
      exact ⟨e, firstFlaw_cons.2 (.inl flawed)⟩
    · have sound : ∀ d, ¬Flaw b d := fun d flawed => first ⟨d, flawed⟩
      obtain ⟨a, ha, e, flawed⟩ := h
      obtain rfl | ha := List.mem_cons.1 ha
      · exact absurd flawed (sound e)
      · obtain ⟨e, rest⟩ := ih ⟨a, ha, e, flawed⟩
        exact ⟨e, firstFlaw_cons.2 (.inr ⟨sound, rest⟩)⟩

theorem sound_of_not_firstFlaw (h : ∀ e, ¬FirstFlaw Flaw l e) : ∀ a ∈ l, ∀ e, ¬Flaw a e := by
  intro a ha e flawed
  obtain ⟨d, first⟩ := exists_firstFlaw ⟨a, ha, e, flawed⟩
  exact h d first

/-- Where there is but one kind of flaw it does not matter which member is the first. -/
theorem firstFlaw_iff_of_eq {d : Error} (only : ∀ a ∈ l, ∀ e, Flaw a e → e = d) :
    FirstFlaw Flaw l e ↔ e = d ∧ ∃ a ∈ l, Flaw a d := by
  constructor
  · intro first
    obtain ⟨a, ha, flawed⟩ := first.exists_mem
    obtain rfl := only a ha e flawed
    exact ⟨rfl, a, ha, flawed⟩
  · rintro ⟨rfl, a, ha, flawed⟩
    obtain ⟨d, first⟩ := exists_firstFlaw ⟨a, ha, e, flawed⟩
    obtain ⟨b, hb, other⟩ := first.exists_mem
    exact only b hb d other ▸ first

end FirstFlaw

theorem bind_eq_error {α β : Type} {x : Except Error α} {f : α → Except Error β} {e : Error} :
    (x >>= f) = .error e ↔ x = .error e ∨ ∃ a, x = .ok a ∧ f a = .error e := by
  cases x with
  | error d =>
    constructor
    · exact fun h => .inl (congrArg Except.error (Except.error.inj h))
    · rintro (h | ⟨a, h, -⟩)
      · exact congrArg Except.error (Except.error.inj h)
      · cases h
  | ok a =>
    constructor
    · exact fun h => .inr ⟨a, rfl, h⟩
    · rintro (h | ⟨b, h, failed⟩)
      · cases h
      · cases h
        exact failed

theorem ok_bind {α β : Type} {a : α} {f : α → Except Error β} : (.ok a >>= f) = f a := rfl

theorem pure_ne_error {α : Type} {a : α} {e : Error} : (pure a : Except Error α) ≠ .error e := nofun

theorem exists_eq_ok {α : Type} {x : Except Error α} (h : ∀ e, x ≠ .error e) : ∃ a, x = .ok a := by
  cases x with
  | error e => exact absurd rfl (h e)
  | ok a => exact ⟨a, rfl⟩

/-- A loop that refuses the flawed members is refused for the first of them. -/
theorem mapM_eq_error {α β : Type} {f : α → Except Error β} {Flaw : α → Error → Prop}
    (flaws : ∀ a e, f a = .error e ↔ Flaw a e) {l : List α} {e : Error} :
    l.mapM f = .error e ↔ FirstFlaw Flaw l e := by
  induction l with
  | nil => exact ⟨nofun, fun h => absurd h not_firstFlaw_nil⟩
  | cons a l ih =>
    have sound : (∀ d, ¬Flaw a d) ↔ ∃ b, f a = .ok b := by
      simp only [← flaws]
      refine ⟨exists_eq_ok, ?_⟩
      rintro ⟨b, hb⟩ d failed
      rw [hb] at failed
      cases failed
    have rest {b : β} : (l.mapM f >>= fun r => pure (b :: r)) = .error e ↔ FirstFlaw Flaw l e := by
      rw [← ih, bind_eq_error]
      exact or_iff_left fun ⟨_, _, h⟩ => pure_ne_error h
    rw [List.mapM_cons, bind_eq_error, firstFlaw_cons, flaws, sound]
    simp only [rest, exists_and_right]

/-- A step that fails with every flaw and ends well without one tells the flaws. -/
theorem eq_error_iff {ε α : Type} {x : Except ε α} {Flaw : ε → Prop} {e : ε}
    (flawed : ∀ d, Flaw d → x = .error d) (sound : (∀ d, ¬Flaw d) → ∃ a, x = .ok a) :
    x = .error e ↔ Flaw e := by
  by_cases any : ∃ d, Flaw d
  · obtain ⟨d, hd⟩ := any
    rw [flawed d hd, Except.error.injEq]
    constructor
    · rintro rfl
      exact hd
    · intro he
      exact Except.error.inj ((flawed d hd).symm.trans (flawed e he))
  · obtain ⟨a, ha⟩ := sound fun d hd => any ⟨d, hd⟩
    rw [ha]
    exact ⟨nofun, fun he => absurd ⟨e, he⟩ any⟩

theorem mapM_eq_ok {α β : Type} {f : α → Except Error β} {l : List α} {r : List β} :
    l.mapM f = .ok r ↔ List.Forall₂ (fun a b => f a = .ok b) l r := by
  induction l generalizing r with
  | nil =>
    rw [List.forall₂_nil_left_iff, List.mapM_nil]
    exact ⟨fun h => (Except.ok.inj h).symm, fun h => congrArg Except.ok h.symm⟩
  | cons a l ih =>
    rw [List.mapM_cons, bind_eq_ok, List.forall₂_cons_left_iff]
    simp only [bind_eq_ok, ih]
    constructor
    · rintro ⟨b, first, rest, steps, h⟩
      cases h
      exact ⟨b, rest, first, steps, rfl⟩
    · rintro ⟨b, rest, first, steps, rfl⟩
      exact ⟨b, first, rest, steps, rfl⟩

/-! ### Fields -/

section Fields

variable {data : ByteArray} {i : Nat}

theorem word_eq_ok {w : Word} : word data i = .ok w ↔ Bytes.word? data i = some w :=
  Region.need_eq_ok

theorem size_eq_ok {n : Nat} : size data i = .ok n ↔ (Bytes.word? data i).map (·.toNat) = some n := by
  unfold size word
  cases Bytes.word? data i with
  | none => exact ⟨nofun, nofun⟩
  | some w =>
    change Except.ok w.toNat = Except.ok n ↔ some w.toNat = some n
    rw [Except.ok.injEq, Option.some.injEq]

theorem half_eq_ok {n : Nat} : half data i = .ok n ↔ (Bytes.half? data i).map (·.toNat) = some n := by
  unfold half
  cases Bytes.half? data i with
  | none => exact ⟨nofun, nofun⟩
  | some x =>
    change Except.ok x.toNat = Except.ok n ↔ some x.toNat = some n
    rw [Except.ok.injEq, Option.some.injEq]

theorem exists_word? (data : ByteArray) (i : Nat) (room : i + 4 ≤ data.size) :
    ∃ w, Bytes.word? data i = some w := by
  rw [Bytes.word?, Bytes.byte?_of_lt (by omega), Bytes.byte?_of_lt (by omega),
    Bytes.byte?_of_lt (by omega), Bytes.byte?_of_lt (by omega)]
  exact ⟨_, rfl⟩

theorem exists_half? (data : ByteArray) (i : Nat) (room : i + 2 ≤ data.size) :
    ∃ x, Bytes.half? data i = some x := by
  rw [Bytes.half?, Bytes.byte?_of_lt (by omega), Bytes.byte?_of_lt (by omega)]
  exact ⟨_, rfl⟩

theorem exists_size? (data : ByteArray) (i : Nat) (room : i + 4 ≤ data.size) :
    ∃ n, (Bytes.word? data i).map (·.toNat) = some n := by
  obtain ⟨w, hw⟩ := exists_word? data i room
  exact ⟨w.toNat, by rw [hw, Option.map_some]⟩

theorem exists_count? (data : ByteArray) (i : Nat) (room : i + 2 ≤ data.size) :
    ∃ n, (Bytes.half? data i).map (·.toNat) = some n := by
  obtain ⟨x, hx⟩ := exists_half? data i room
  exact ⟨x.toNat, by rw [hx, Option.map_some]⟩

end Fields

/-! ### File headers -/

namespace Header

variable {data : ByteArray} {h : Header} {e : Error}

/-- The numbers of a file header stand in the file, each at its offset. -/
structure StandsAt (data : ByteArray) (h : Header) : Prop where
  machine : (Bytes.half? data 18).map (·.toNat) = some h.machine
  entry : Bytes.word? data 24 = some h.entry
  programOffset : (Bytes.word? data 28).map (·.toNat) = some h.programOffset
  sectionOffset : (Bytes.word? data 32).map (·.toNat) = some h.sectionOffset
  programStride : (Bytes.half? data 42).map (·.toNat) = some h.programStride
  programCount : (Bytes.half? data 44).map (·.toNat) = some h.programCount
  sectionStride : (Bytes.half? data 46).map (·.toNat) = some h.sectionStride
  sectionCount : (Bytes.half? data 48).map (·.toNat) = some h.sectionCount

abbrev HasMagic (data : ByteArray) : Prop := Bytes.Placed data 0 ⟨#[0x7f, 0x45, 0x4c, 0x46]⟩

/-- What is wrong with a file header. Each flaw counts only without those before it. -/
inductive Flaw (data : ByteArray) : Error → Prop where
  | tooSmall (short : data.size < 52) : Flaw data .tooSmall
  | badMagic (long : 52 ≤ data.size) (other : ¬HasMagic data) : Flaw data .badMagic
  | notElf32 (long : 52 ≤ data.size) (magic : HasMagic data) (other : Bytes.byte? data 4 ≠ some 1) :
    Flaw data .notElf32
  | notLittleEndian (long : 52 ≤ data.size) (magic : HasMagic data)
    (small : Bytes.byte? data 4 = some 1) (other : Bytes.byte? data 5 ≠ some 1) :
    Flaw data .notLittleEndian

theorem hasMagic_iff : HasMagic data ↔ Bytes.word? data 0 = some magic := by
  have bytes : Bytes.ofWord magic = ⟨#[0x7f, 0x45, 0x4c, 0x46]⟩ := by decide
  rw [Bytes.word?_eq_some_iff, bytes]

theorem exists_standsAt (long : 52 ≤ data.size) : ∃ h, StandsAt data h := by
  have size (i : Nat) (hi : i ≤ 48) := exists_size? data i (by omega)
  have count (i : Nat) (hi : i ≤ 50) := exists_count? data i (by omega)
  obtain ⟨machine, h₁⟩ := count 18 (by decide)
  obtain ⟨entry, h₂⟩ := exists_word? data 24 (by omega)
  obtain ⟨programOffset, h₃⟩ := size 28 (by decide)
  obtain ⟨sectionOffset, h₄⟩ := size 32 (by decide)
  obtain ⟨programStride, h₅⟩ := count 42 (by decide)
  obtain ⟨programCount, h₆⟩ := count 44 (by decide)
  obtain ⟨sectionStride, h₇⟩ := count 46 (by decide)
  obtain ⟨sectionCount, h₈⟩ := count 48 (by decide)
  exact ⟨⟨entry, machine, programOffset, programStride, programCount, sectionOffset,
    sectionStride, sectionCount⟩, h₁, h₂, h₃, h₄, h₅, h₆, h₇, h₈⟩

theorem read_of_flaw (flaw : Flaw data e) : Header.read data = .error e := by
  unfold Header.read
  cases flaw with
  | tooSmall short => exact if_pos short
  | badMagic long other =>
    have long : ¬data.size < length := Nat.not_lt.2 long
    rw [if_neg long, if_pos (hasMagic_iff.not.1 other)]
  | notElf32 long magic other =>
    have long : ¬data.size < length := Nat.not_lt.2 long
    rw [if_neg long, if_neg (not_not.2 (hasMagic_iff.1 magic)), if_pos other]
  | notLittleEndian long magic small other =>
    have long : ¬data.size < length := Nat.not_lt.2 long
    rw [if_neg long, if_neg (not_not.2 (hasMagic_iff.1 magic)), if_neg (not_not.2 small),
      if_pos other]

theorem read_of_standsAt (sound : ∀ e, ¬Flaw data e) (stands : StandsAt data h) :
    Header.read data = .ok h := by
  have long : 52 ≤ data.size := Nat.not_lt.1 fun short => sound _ (.tooSmall short)
  have magic : HasMagic data := not_not.1 fun other => sound _ (.badMagic long other)
  have small : Bytes.byte? data 4 = some 1 :=
    not_not.1 fun other => sound _ (.notElf32 long magic other)
  have little : Bytes.byte? data 5 = some 1 :=
    not_not.1 fun other => sound _ (.notLittleEndian long magic small other)
  have long : ¬data.size < length := Nat.not_lt.2 long
  rw [read, if_neg long, if_neg (not_not.2 (hasMagic_iff.1 magic)), if_neg (not_not.2 small),
    if_neg (not_not.2 little), half_eq_ok.2 stands.machine, word_eq_ok.2 stands.entry,
    size_eq_ok.2 stands.programOffset, size_eq_ok.2 stands.sectionOffset,
    half_eq_ok.2 stands.programStride, half_eq_ok.2 stands.programCount,
    half_eq_ok.2 stands.sectionStride, half_eq_ok.2 stands.sectionCount]
  rfl

theorem exists_standsAt_of_sound (sound : ∀ e, ¬Flaw data e) : ∃ h, StandsAt data h :=
  exists_standsAt (Nat.not_lt.1 fun short => sound _ (.tooSmall short))

end Header

/-! ### Program headers -/

namespace ProgramHeader

variable {data : ByteArray} {i : Nat} {p : ProgramHeader} {e : Error}

structure StandsAt (data : ByteArray) (i : Nat) (p : ProgramHeader) : Prop where
  room : i + 32 ≤ data.size
  kind : Bytes.word? data i = some p.kind
  offset : (Bytes.word? data (i + 4)).map (·.toNat) = some p.offset
  address : Bytes.word? data (i + 8) = some p.address
  fileSize : (Bytes.word? data (i + 16)).map (·.toNat) = some p.fileSize
  memorySize : (Bytes.word? data (i + 20)).map (·.toNat) = some p.memorySize
  flags : Bytes.word? data (i + 24) = some p.flags

theorem StandsAt.read (stands : p.StandsAt data i) : ProgramHeader.read data i = .ok p := by
  have room : ¬data.size < i + length := Nat.not_lt.2 stands.room
  rw [ProgramHeader.read, if_neg room, word_eq_ok.2 stands.kind, size_eq_ok.2 stands.offset,
    word_eq_ok.2 stands.address, size_eq_ok.2 stands.fileSize, size_eq_ok.2 stands.memorySize,
    word_eq_ok.2 stands.flags]
  rfl

theorem exists_standsAt (room : i + 32 ≤ data.size) : ∃ p : ProgramHeader, p.StandsAt data i := by
  obtain ⟨kind, h₁⟩ := exists_word? data i (by omega)
  obtain ⟨offset, h₂⟩ := exists_size? data (i + 4) (by omega)
  obtain ⟨address, h₃⟩ := exists_word? data (i + 8) (by omega)
  obtain ⟨fileSize, h₄⟩ := exists_size? data (i + 16) (by omega)
  obtain ⟨memorySize, h₅⟩ := exists_size? data (i + 20) (by omega)
  obtain ⟨flags, h₆⟩ := exists_word? data (i + 24) (by omega)
  exact ⟨⟨kind, offset, address, fileSize, memorySize, flags⟩, room, h₁, h₂, h₃, h₄, h₅, h₆⟩

theorem read_of_short (short : data.size < i + 32) :
    ProgramHeader.read data i = .error (.outOfBounds .programHeader) := if_pos short

theorem standsAt_of_read (h : ProgramHeader.read data i = .ok p) : p.StandsAt data i := by
  by_cases room : i + 32 ≤ data.size
  · obtain ⟨q, stands⟩ := exists_standsAt room
    rw [stands.read] at h
    cases h
    exact stands
  · rw [read_of_short (Nat.not_le.1 room)] at h
    cases h

/-- What is wrong with a program header: its end, then the end of its bytes, then its size. -/
inductive Flaw (data : ByteArray) (i : Nat) : Error → Prop where
  | passesEnd (short : data.size < i + 32) : Flaw data i (.outOfBounds .programHeader)
  | bytesPassEnd {p : ProgramHeader} (stands : p.StandsAt data i) (loaded : p.Loaded)
    (short : data.size < p.offset + p.fileSize) : Flaw data i (.outOfBounds .segmentData)
  | tooLarge {p : ProgramHeader} (stands : p.StandsAt data i) (loaded : p.Loaded)
    (fits : p.offset + p.fileSize ≤ data.size) (code : p.executable = true)
    (large : Segment.maxSize < max p.memorySize p.fileSize) :
    Flaw data i (.segmentTooLarge p.address (max p.memorySize p.fileSize))

theorem segmentAt_of_flaw (flaw : Flaw data i e) : segmentAt data i = .error e := by
  cases flaw with
  | passesEnd short =>
    rw [segmentAt, read_of_short short]
    rfl
  | @bytesPassEnd p stands loaded short =>
    have missing : Bytes.slice? data p.offset p.fileSize = none := if_neg (Nat.not_le.2 short)
    rw [segmentAt, stands.read]
    change (if p.Loaded then _ else _) = _
    rw [if_pos loaded, segment, missing]
    rfl
  | @tooLarge p stands loaded fits code large =>
    have found : Bytes.slice? data p.offset p.fileSize =
        some (data.extract p.offset (p.offset + p.fileSize)) := if_pos fits
    rw [segmentAt, stands.read]
    change (if p.Loaded then _ else _) = _
    rw [if_pos loaded, segment, found]
    change ((if p.executable = true then _ else _) >>= _) = _
    rw [if_pos code, if_pos large]
    rfl

theorem segmentAt_of_sound (sound : ∀ e, ¬Flaw data i e) : ∃ o, segmentAt data i = .ok o := by
  have room : i + 32 ≤ data.size := Nat.not_lt.1 fun short => sound _ (.passesEnd short)
  obtain ⟨p, stands⟩ := exists_standsAt room
  by_cases loaded : p.Loaded
  · have fits : p.offset + p.fileSize ≤ data.size :=
      Nat.not_lt.1 fun short => sound _ (.bytesPassEnd stands loaded short)
    have small (code : p.executable = true) : p.size ≤ Segment.maxSize :=
      Nat.not_lt.1 fun large => sound _ (.tooLarge stands loaded fits code large)
    exact ⟨_, segmentAt_of_fits stands.read loaded fits small⟩
  · rw [segmentAt, stands.read]
    exact ⟨none, if_neg loaded⟩

theorem segmentAt_eq_error : segmentAt data i = .error e ↔ Flaw data i e :=
  eq_error_iff (fun _ => segmentAt_of_flaw) segmentAt_of_sound

end ProgramHeader

theorem loadedSegments_eq_error {data : ByteArray} {h : Header} {e : Error} :
    loadedSegments data h = .error e ↔
      FirstFlaw (fun i => ProgramHeader.Flaw data (h.programOffset + i * h.programStride))
        (List.range h.programCount) e := by
  rw [← mapM_eq_error fun i _ => ProgramHeader.segmentAt_eq_error, loadedSegments, bind_eq_error]
  exact or_iff_left fun ⟨_, _, h⟩ => pure_ne_error h

theorem exists_loadedSegments {data : ByteArray} {h : Header}
    (sound : ∀ i < h.programCount, ∀ e,
      ¬ProgramHeader.Flaw data (h.programOffset + i * h.programStride) e) :
    ∃ l, loadedSegments data h = .ok l := by
  apply exists_eq_ok
  intro e failed
  obtain ⟨i, hi, flaw⟩ := (loadedSegments_eq_error.1 failed).exists_mem
  exact sound i (List.mem_range.1 hi) e flaw

/-! ### Section headers -/

namespace Section

variable {data : ByteArray} {i : Nat} {s : Section} {e : Error}

structure StandsAt (data : ByteArray) (i : Nat) (s : Section) : Prop where
  room : i + 40 ≤ data.size
  kind : Bytes.word? data (i + 4) = some s.kind
  offset : (Bytes.word? data (i + 16)).map (·.toNat) = some s.offset
  size : (Bytes.word? data (i + 20)).map (·.toNat) = some s.size
  link : (Bytes.word? data (i + 24)).map (·.toNat) = some s.link

theorem StandsAt.read (stands : s.StandsAt data i) : Section.read data i = .ok s := by
  have room : ¬data.size < i + length := Nat.not_lt.2 stands.room
  rw [Section.read, if_neg room, word_eq_ok.2 stands.kind, size_eq_ok.2 stands.offset,
    size_eq_ok.2 stands.size, size_eq_ok.2 stands.link]
  rfl

theorem exists_standsAt (room : i + 40 ≤ data.size) : ∃ s : Section, s.StandsAt data i := by
  obtain ⟨kind, h₁⟩ := exists_word? data (i + 4) (by omega)
  obtain ⟨offset, h₂⟩ := exists_size? data (i + 16) (by omega)
  obtain ⟨size, h₃⟩ := exists_size? data (i + 20) (by omega)
  obtain ⟨link, h₄⟩ := exists_size? data (i + 24) (by omega)
  exact ⟨⟨kind, offset, size, link⟩, room, h₁, h₂, h₃, h₄⟩

theorem read_of_short (short : data.size < i + 40) :
    Section.read data i = .error (.outOfBounds .sectionHeader) := if_pos short

theorem standsAt_of_read (h : Section.read data i = .ok s) : s.StandsAt data i := by
  by_cases room : i + 40 ≤ data.size
  · obtain ⟨t, stands⟩ := exists_standsAt room
    rw [stands.read] at h
    cases h
    exact stands
  · rw [read_of_short (Nat.not_le.1 room)] at h
    cases h

inductive Flaw (data : ByteArray) (i : Nat) : Error → Prop where
  | passesEnd (short : data.size < i + 40) : Flaw data i (.outOfBounds .sectionHeader)

theorem read_eq_error : Section.read data i = .error e ↔ Flaw data i e := by
  refine eq_error_iff (fun d flaw => ?_) fun sound => ?_
  · cases flaw with
    | passesEnd short => exact read_of_short short
  · obtain ⟨s, stands⟩ := exists_standsAt (Nat.not_lt.1 fun short => sound _ (.passesEnd short))
    exact ⟨s, stands.read⟩

end Section

theorem sectionsOf_eq_error {data : ByteArray} {h : Header} {e : Error} :
    sectionsOf data h = .error e ↔ e = .outOfBounds .sectionHeader ∧
      ∃ i < h.sectionCount, data.size < h.sectionOffset + i * h.sectionStride + 40 := by
  rw [sectionsOf, mapM_eq_error fun i _ => Section.read_eq_error,
    firstFlaw_iff_of_eq fun _ _ _ ⟨_⟩ => rfl]
  apply and_congr_right
  intro _
  constructor
  · rintro ⟨i, hi, ⟨short⟩⟩
    exact ⟨i, List.mem_range.1 hi, short⟩
  · rintro ⟨i, hi, short⟩
    exact ⟨i, List.mem_range.2 hi, .passesEnd short⟩

theorem exists_sectionsOf {data : ByteArray} {h : Header}
    (fits : ∀ i < h.sectionCount, h.sectionOffset + i * h.sectionStride + 40 ≤ data.size) :
    ∃ l, sectionsOf data h = .ok l := by
  apply exists_eq_ok
  intro e failed
  obtain ⟨-, i, hi, short⟩ := sectionsOf_eq_error.1 failed
  exact absurd (fits i hi) (Nat.not_le.2 short)

end Disarm.Elf
