import Disarm.Proofs.Encoding
import Disarm.Proofs.ProgramHeaders
/-!
Files that go on. All that is read from a file lies where its headers say, and its end shows only in
checks that a longer file passes too. Main statement: bytes after a file that is read change nothing
in the result.
-/

namespace Disarm.Elf

/-- Where the first reading ends well, the second one ends with the same result. -/
def Persists {α : Type} (x y : Except Error α) : Prop := ∀ a, x = .ok a → y = .ok a

namespace Persists

variable {α β : Type} {x y : Except Error α}

theorem refl (x : Except Error α) : Persists x x := fun _ h => h

theorem bind {f g : α → Except Error β} (h : Persists x y) (next : ∀ a, Persists (f a) (g a)) :
    Persists (x >>= f) (y >>= g) := by
  intro b hb
  obtain ⟨a, hx, hf⟩ := bind_eq_ok.1 hb
  exact bind_eq_ok.2 ⟨a, h a hx, next a b hf⟩

theorem check {c d : Prop} [Decidable c] [Decidable d] {e : Error} (weaker : d → c)
    (h : ¬c → Persists x y) :
    Persists (if c then .error e else x) (if d then .error e else y) := by
  intro a ha
  by_cases failed : c
  · rw [if_pos failed] at ha
    cases ha
  · rw [if_neg failed] at ha
    rw [if_neg fun hd => failed (weaker hd)]
    exact h failed a ha

theorem need {part : Region} {o p : Option α} (h : ∀ a, o = some a → p = some a) :
    Persists (part.need o) (part.need p) := by
  intro a ha
  rw [Region.need_eq_ok] at ha ⊢
  exact h a ha

theorem mapM {f g : α → Except Error β} (h : ∀ a, Persists (f a) (g a)) (l : List α) :
    Persists (l.mapM f) (l.mapM g) := by
  induction l with
  | nil => exact refl _
  | cons a l ih =>
    rw [List.mapM_cons, List.mapM_cons]
    exact (h a).bind fun _ => ih.bind fun _ => refl _

end Persists

section Longer

variable {data longer : ByteArray} (front : Bytes.Placed longer 0 data)
include front

theorem size_le_of_front : data.size ≤ longer.size := by
  have fits := front.fits
  omega

theorem half?_of_front {i : Nat} (h : i + 2 ≤ data.size) :
    Bytes.half? longer i = Bytes.half? data i := by
  have same := front.half?_eq h
  rwa [Nat.zero_add] at same

theorem word?_of_front {i : Nat} (h : i + 4 ≤ data.size) :
    Bytes.word? longer i = Bytes.word? data i := by
  have same := front.word?_eq h
  rwa [Nat.zero_add] at same

/-! ### Fields and records -/

theorem half_persists (i : Nat) : Persists (half data i) (half longer i) :=
  .bind (.need fun _ hx => (half?_of_front front (Bytes.le_size_of_half? hx)).trans hx)
    fun _ => .refl _

theorem word_persists (i : Nat) : Persists (word data i) (word longer i) :=
  .need fun _ hw => (word?_of_front front (Bytes.le_size_of_word? hw)).trans hw

theorem size_persists (i : Nat) : Persists (size data i) (size longer i) :=
  .bind (word_persists front i) fun _ => .refl _

theorem slice_persists (part : Region) (i len : Nat) :
    Persists (part.need (Bytes.slice? data i len)) (part.need (Bytes.slice? longer i len)) := by
  refine .need fun s hs => ?_
  obtain ⟨fits, rfl⟩ := Bytes.slice?_eq_some.1 hs
  have inner := front.trans (Bytes.placed_extract fits)
  have same := inner.slice?_eq
  rwa [Nat.zero_add, Bytes.size_extract_of_le fits] at same

theorem Header.read_persists : Persists (Header.read data) (Header.read longer) := by
  have grows := size_le_of_front front
  unfold Header.read
  refine .check (fun short => by omega) fun long => ?_
  have room : 52 ≤ data.size := Nat.le_of_not_lt long
  have byte {i : Nat} (hi : i < data.size) : Bytes.byte? longer i = Bytes.byte? data i := by
    have same := front.byte i hi
    rwa [Nat.zero_add] at same
  rw [word?_of_front front (by omega), byte (by omega), byte (by omega)]
  refine .check id fun _ => .check id fun _ => .check id fun _ => ?_
  exact .bind (half_persists front _) fun _ => .bind (word_persists front _) fun _ =>
    .bind (size_persists front _) fun _ => .bind (size_persists front _) fun _ =>
    .bind (half_persists front _) fun _ => .bind (half_persists front _) fun _ =>
    .bind (half_persists front _) fun _ => .bind (half_persists front _) fun _ => .refl _

theorem ProgramHeader.read_persists (i : Nat) :
    Persists (ProgramHeader.read data i) (ProgramHeader.read longer i) := by
  have grows := size_le_of_front front
  refine .check (fun short => by omega) fun _ => ?_
  exact .bind (word_persists front _) fun _ => .bind (size_persists front _) fun _ =>
    .bind (word_persists front _) fun _ => .bind (size_persists front _) fun _ =>
    .bind (size_persists front _) fun _ => .bind (word_persists front _) fun _ => .refl _

theorem Section.read_persists (i : Nat) :
    Persists (Section.read data i) (Section.read longer i) := by
  have grows := size_le_of_front front
  refine .check (fun short => by omega) fun _ => ?_
  exact .bind (word_persists front _) fun _ => .bind (size_persists front _) fun _ =>
    .bind (size_persists front _) fun _ => .bind (size_persists front _) fun _ => .refl _

/-! ### Segments and symbols -/

theorem segmentAt_persists (i : Nat) : Persists (segmentAt data i) (segmentAt longer i) := by
  refine .bind (ProgramHeader.read_persists front i) fun p => ?_
  split
  · exact .bind (.bind (slice_persists front _ _ _) fun _ => .refl _) fun _ => .refl _
  · exact .refl _

theorem loadedSegments_persists (h : Header) :
    Persists (loadedSegments data h) (loadedSegments longer h) :=
  .bind (.mapM (fun _ => segmentAt_persists front _) _) fun _ => .refl _

theorem sectionsOf_persists (h : Header) : Persists (sectionsOf data h) (sectionsOf longer h) :=
  .mapM (fun _ => Section.read_persists front _) _

/-- Records and names are cut out by the sizes of their sections, so that only the cuts are made on
the file. -/
theorem tableSymbols_persists (l : List Section) (s : Section) :
    Persists (tableSymbols data l s) (tableSymbols longer l s) :=
  .bind (.refl _) fun _ => .bind (slice_persists front _ _ _) fun _ =>
    .bind (slice_persists front _ _ _) fun _ => .refl _

theorem definedSymbols_persists (l : List Section) :
    Persists (definedSymbols data l) (definedSymbols longer l) :=
  .bind (.mapM (tableSymbols_persists front l) _) fun _ => .refl _

theorem File.ofBytes_persists : Persists (File.ofBytes data) (File.ofBytes longer) :=
  .bind (Header.read_persists front) fun h => .bind (loadedSegments_persists front h) fun _ =>
    .bind (sectionsOf_persists front h) fun l => .bind (definedSymbols_persists front l) fun _ =>
      .refl _

end Longer

/-- A file that is read is read with more behind it too, and all such files that are beginnings of
one are read alike. -/
theorem File.ofBytes_append {data : ByteArray} {f : File} (h : File.ofBytes data = .ok f) :
    (∀ extra, File.ofBytes (data ++ extra) = .ok f) ∧
    ∀ (other extra extra' : ByteArray) (g : File), data ++ extra = other ++ extra' →
      File.ofBytes other = .ok g → f = g := by
  have longer (extra : ByteArray) : File.ofBytes (data ++ extra) = .ok f :=
    File.ofBytes_persists Bytes.placed_left f h
  refine ⟨longer, fun other extra extra' g same hg => ?_⟩
  have whole := File.ofBytes_persists (Bytes.placed_left (s := other) (t := extra')) g hg
  rw [← same, longer extra] at whole
  exact Except.ok.inj whole

/-- A file whose only name goes on to the last byte. -/
def openEnded : ByteArray := Bytes.join [
  Header.encode {
    entry := 0x8000, machine := armMachine, programOffset := 0, programStride := 0
    programCount := 0, sectionOffset := 52, sectionStride := 40, sectionCount := 2 },
  Section.encode ⟨2, 132, 16, 1⟩, Section.encode ⟨3, 148, 4, 0⟩,
  Symbol.record 0 0x8001 4 0x12 0 1, "main".toUTF8]

theorem File.ofBytes_append_openEnded :
    ∃ f, File.ofBytes openEnded = .ok f ∧
      f.symbols = [⟨"main", 0x8000, 4, .function, true⟩] ∧
      File.ofBytes (openEnded ++ "tain".toUTF8) = .ok f := by
  have symbols : (File.ofBytes openEnded).toOption.map (·.symbols) =
      some [⟨"main", 0x8000, 4, .function, true⟩] := by
    decide +kernel
  cases hf : File.ofBytes openEnded with
  | error e =>
    rw [hf] at symbols
    cases symbols
  | ok f =>
    rw [hf] at symbols
    exact ⟨f, rfl, Option.some.inj symbols, (File.ofBytes_append hf).1 _⟩

end Disarm.Elf
