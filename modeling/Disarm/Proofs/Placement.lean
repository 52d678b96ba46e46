import Disarm.Proofs.ByteStrings
/-!
Byte strings inside byte strings. A read that stays within a part gives what it gives on the part
alone, wherever the part stands. Main statement: the parts of a joined string stand one after the
other.
-/

namespace Disarm.Bytes

variable {b s t : ByteArray} {i j k len : Nat}

theorem ext_byte? (h : ∀ k, byte? b k = byte? s k) : b = s := by
  refine ByteArray.ext (Array.ext_getElem? fun k => ?_)
  rw [← byte?_eq_getElem?, ← byte?_eq_getElem?]
  exact h k

/-! ### Reads that stay within the bytes -/

theorem le_size_of_half? {x : BitVec 16} (h : half? b i = some x) : i + 2 ≤ b.size := by
  by_cases last : i + 1 < b.size
  · omega
  · simp [half?, byte?_of_le (Nat.le_of_not_lt last)] at h

theorem le_size_of_word? {w : Word} (h : word? b i = some w) : i + 4 ≤ b.size := by
  by_cases last : i + 3 < b.size
  · omega
  · simp [word?, byte?_of_le (Nat.le_of_not_lt last)] at h

theorem slice?_eq_some :
    slice? b i len = some s ↔ i + len ≤ b.size ∧ b.extract i (i + len) = s := by
  unfold slice?
  split
  · next fits => simp [fits]
  · next beyond => simp [beyond]

/-! ### Parts -/

/-- The bytes `s` stand in `b` at an offset. -/
structure Placed (b : ByteArray) (i : Nat) (s : ByteArray) : Prop where
  fits : i + s.size ≤ b.size
  byte : ∀ k < s.size, byte? b (i + k) = byte? s k

theorem placed_self (b : ByteArray) : Placed b 0 b :=
  ⟨Nat.le_of_eq (Nat.zero_add _), fun k _ => congrArg (byte? b) (Nat.zero_add k)⟩

theorem placed_left : Placed (s ++ t) 0 s where
  fits := by
    rw [ByteArray.size_append]
    omega
  byte k hk := by rw [byte?_append, Nat.zero_add, if_pos hk]

theorem placed_right : Placed (s ++ t) s.size t where
  fits := Nat.le_of_eq ByteArray.size_append.symm
  byte k hk := by rw [byte?_append, if_neg (by omega), Nat.add_sub_cancel_left]

theorem placed_extract (h : i + len ≤ b.size) : Placed b i (b.extract i (i + len)) where
  fits := by
    rw [size_extract_of_le h]
    exact h
  byte k hk := by
    rw [size_extract_of_le h] at hk
    rw [byte?_extract, if_pos (by omega)]

namespace Placed

theorem trans (h : Placed b i s) (h' : Placed s j t) : Placed b (i + j) t where
  fits := by
    have outer := h.fits
    have inner := h'.fits
    omega
  byte k hk := by
    have inner := h'.fits
    rw [Nat.add_assoc, h.byte (j + k) (by omega), h'.byte k hk]

theorem append (h : Placed b i s) : Placed (b ++ t) i s := by
  have whole : Placed (b ++ t) (0 + i) s := placed_left.trans h
  rwa [Nat.zero_add] at whole

theorem half?_eq (h : Placed b i s) (hk : k + 2 ≤ s.size) : half? b (i + k) = half? s k := by
  simp only [half?, Nat.add_assoc, h.byte k (by omega), h.byte (k + 1) (by omega)]

theorem word?_eq (h : Placed b i s) (hk : k + 4 ≤ s.size) : word? b (i + k) = word? s k := by
  simp only [word?, Nat.add_assoc, h.byte k (by omega), h.byte (k + 1) (by omega),
    h.byte (k + 2) (by omega), h.byte (k + 3) (by omega)]

theorem extract_eq (h : Placed b i s) : b.extract i (i + s.size) = s := by
  refine ext_byte? fun k => ?_
  rw [byte?_extract]
  split
  · next inside => exact h.byte k (by omega)
  · next outside => rw [byte?_of_le (by omega)]

theorem slice?_eq (h : Placed b i s) : slice? b i s.size = some s :=
  slice?_eq_some.2 ⟨h.fits, h.extract_eq⟩

end Placed

theorem placed_append :
    Placed b i (s ++ t) ↔ Placed b i s ∧ Placed b (i + s.size) t := by
  constructor
  · intro h
    exact ⟨h.trans placed_left, h.trans placed_right⟩
  · rintro ⟨first, second⟩
    refine ⟨?_, fun k hk => ?_⟩
    · rw [ByteArray.size_append, ← Nat.add_assoc]
      exact second.fits
    · rw [ByteArray.size_append] at hk
      rw [byte?_append]
      split
      · next inside => exact first.byte k inside
      · next outside =>
        have place : i + k = i + s.size + (k - s.size) := by omega
        rw [place, second.byte _ (by omega)]

/-! ### Numbers as bytes -/

def ofByte (x : UInt8) : ByteArray := ⟨#[x]⟩

def ofHalf (h : BitVec 16) : ByteArray := ⟨#[⟨h.extractLsb' 0 8⟩, ⟨h.extractLsb' 8 8⟩]⟩

def ofWord (w : Word) : ByteArray := ⟨#[w.byte 0, w.byte 1, w.byte 2, w.byte 3]⟩

@[simp] theorem size_ofByte (x : UInt8) : (ofByte x).size = 1 := rfl

@[simp] theorem size_ofHalf (h : BitVec 16) : (ofHalf h).size = 2 := rfl

@[simp] theorem size_ofWord (w : Word) : (ofWord w).size = 4 := rfl

theorem half?_ofHalf (h : BitVec 16) : half? (ofHalf h) 0 = some h := by
  have whole : h.extractLsb' 8 8 ++ h.extractLsb' 0 8 = h.extractLsb' 0 (8 + 8) :=
    BitVec.extractLsb'_append_extractLsb'_eq_extractLsb' rfl
  exact congrArg some (whole.trans BitVec.extractLsb'_eq_self)

theorem word?_ofWord (w : Word) : word? (ofWord w) 0 = some w :=
  congrArg some w.ofBytes_byte

theorem Placed.byte? {x : UInt8} (p : Placed b i (ofByte x)) : byte? b i = some x :=
  p.byte 0 Nat.zero_lt_one

theorem Placed.half? {h : BitVec 16} (p : Placed b i (ofHalf h)) : half? b i = some h :=
  (p.half?_eq (Nat.le_refl 2)).trans (half?_ofHalf h)

theorem Placed.word? {w : Word} (p : Placed b i (ofWord w)) : word? b i = some w :=
  (p.word?_eq (Nat.le_refl 4)).trans (word?_ofWord w)

/-- A word is read where its bytes stand and nowhere else. -/
theorem word?_eq_some_iff {w : Word} : word? b i = some w ↔ Placed b i (ofWord w) := by
  refine ⟨fun h => ?_, Placed.word?⟩
  have room := le_size_of_word? h
  simp only [word?, byte?_of_lt (show i < b.size by omega),
    byte?_of_lt (show i + 1 < b.size by omega), byte?_of_lt (show i + 2 < b.size by omega),
    byte?_of_lt (show i + 3 < b.size by omega), Option.bind_eq_bind, Option.bind_some,
    Option.pure_def, Option.some.injEq] at h
  obtain ⟨h₀, h₁, h₂, h₃⟩ := Word.byte_ofBytes b[i] b[i + 1] b[i + 2] b[i + 3]
  rw [h] at h₀ h₁ h₂ h₃
  refine ⟨room, fun k hk => ?_⟩
  have index : k = 0 ∨ k = 1 ∨ k = 2 ∨ k = 3 := by
    rw [size_ofWord] at hk
    omega
  obtain rfl | rfl | rfl | rfl := index
  · exact (byte?_of_lt _).trans (congrArg some h₀.symm)
  · exact (byte?_of_lt _).trans (congrArg some h₁.symm)
  · exact (byte?_of_lt _).trans (congrArg some h₂.symm)
  · exact (byte?_of_lt _).trans (congrArg some h₃.symm)

/-! ### Joined parts -/

def join (l : List ByteArray) : ByteArray := l.foldr (· ++ ·) .empty

@[simp] theorem join_nil : join [] = .empty := rfl

@[simp] theorem join_cons (s : ByteArray) (l : List ByteArray) : join (s :: l) = s ++ join l := rfl

def ofWords (l : List Word) : ByteArray := join (l.map ofWord)

theorem size_ofWords (l : List Word) : (ofWords l).size = 4 * l.length := by
  induction l with
  | nil => rfl
  | cons w l ih =>
    change (ofWord w ++ ofWords l).size = _
    rw [ByteArray.size_append, ih, size_ofWord, List.length_cons]
    omega

end Disarm.Bytes
