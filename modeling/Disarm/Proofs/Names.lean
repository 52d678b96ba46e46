import Disarm.Elf.File
import Disarm.Proofs.Placement
/-!
Names in a name table. A name is the bytes up to a zero, and the text of a string without a zero
character holds no zero byte. Main statement: where such a text stands with a zero behind it, its
name is read.
-/

namespace Disarm

namespace Bytes

variable {b : ByteArray} {i j : Nat}

theorem zeroFrom_of_size_le (h : b.size ≤ i) : zeroFrom b i = b.size := by
  rw [zeroFrom, dif_neg (Nat.not_lt.2 h)]

theorem zeroFrom_of_zero (h : byte? b i = some 0) : zeroFrom b i = i := by
  have inside := lt_size_of_byte? h
  rw [byte?_of_lt inside] at h
  rw [zeroFrom, dif_pos inside, if_pos (Option.some.inj h)]

theorem zeroFrom_of_ne_zero (inside : i < b.size) (h : byte? b i ≠ some 0) :
    zeroFrom b i = zeroFrom b (i + 1) := by
  rw [byte?_of_lt inside] at h
  rw [zeroFrom, dif_pos inside, if_neg fun zero => h (congrArg some zero)]

theorem zeroFrom_le_size : zeroFrom b i ≤ b.size := by
  fun_induction zeroFrom b i with
  | case1 i inside => exact Nat.le_of_lt inside
  | case2 i inside nonzero ih => exact ih
  | case3 i beyond => exact Nat.le_refl _

/-- The first zero from `i` on is the one at `j` if there is none between. -/
theorem zeroFrom_eq (le : i ≤ j) (none : ∀ k, i ≤ k → k < j → byte? b k ≠ some 0)
    (zero : byte? b j = some 0) : zeroFrom b i = j := by
  obtain ⟨d, rfl⟩ := Nat.exists_eq_add_of_le le
  have inside := lt_size_of_byte? zero
  induction d generalizing i with
  | zero => exact zeroFrom_of_zero zero
  | succ d ih =>
    have next : i + (d + 1) = i + 1 + d := by omega
    rw [next] at zero inside none ⊢
    rw [zeroFrom_of_ne_zero (by omega) (none i (Nat.le_refl i) (by omega))]
    exact ih (by omega) (fun k above => none k (by omega)) zero inside

end Bytes

/-! ### Zero bytes of a text -/

theorem eq_zero_of_zero_mem_utf8EncodeChar {c : Char} (h : 0 ∈ String.utf8EncodeChar c) :
    c = '\x00' := by
  have nonzero {n : Nat} (hn : n % 256 ≠ 0) : (0 : UInt8) ≠ UInt8.ofNat n := by
    intro e
    have values := congrArg UInt8.toNat e
    rw [UInt8.toNat_ofNat'] at values
    exact hn values.symm
  unfold String.utf8EncodeChar at h
  dsimp only at h
  -- Only the form of one byte can hold a zero: all others carry marks in their upper bits.
  split at h
  · next short =>
    have value : c.val.toNat = 0 := by
      by_cases zero : c.val.toNat % 256 = 0
      · omega
      · exact absurd (List.mem_singleton.1 h) (nonzero zero)
    exact Char.ext (UInt32.toNat_inj.1 value)
  · exfalso
    split at h
    · simp only [List.mem_cons, List.not_mem_nil, or_false] at h
      rcases h with h | h <;> exact nonzero (by omega) h
    · split at h
      · simp only [List.mem_cons, List.not_mem_nil, or_false] at h
        rcases h with h | h | h <;> exact nonzero (by omega) h
      · simp only [List.mem_cons, List.not_mem_nil, or_false] at h
        rcases h with h | h | h | h <;> exact nonzero (by omega) h

theorem byte?_toUTF8_ne_zero {s : String} (h : '\x00' ∉ s.toList) (k : Nat) :
    Bytes.byte? s.toUTF8 k ≠ some 0 := by
  intro zero
  rw [String.toUTF8_eq_toByteArray, ← String.utf8Encode_toList, List.utf8Encode,
    Bytes.byte?_eq_getElem?, List.data_toByteArray, List.getElem?_toArray] at zero
  obtain ⟨c, hc, hzero⟩ := List.mem_flatMap.1 (List.mem_of_getElem? zero)
  exact h (eq_zero_of_zero_mem_utf8EncodeChar hzero ▸ hc)

theorem fromUTF8?_toUTF8 (s : String) : String.fromUTF8? s.toUTF8 = some s := by
  rw [String.toUTF8_eq_toByteArray, String.fromUTF8?, dif_pos s.isValidUTF8]
  rfl

/-! ### Names -/

namespace Elf.Symbol

def terminated (name : String) : ByteArray := name.toUTF8 ++ Bytes.ofByte 0

theorem nameAt_of_placed {names : ByteArray} {name : String} {i : Nat}
    (clean : '\x00' ∉ name.toList) (h : Bytes.Placed names i (terminated name)) :
    nameAt names i = .ok name := by
  obtain ⟨text, last⟩ := Bytes.placed_append.1 h
  have fits := text.fits
  have stop : Bytes.zeroFrom names i = i + name.toUTF8.size := by
    refine Bytes.zeroFrom_eq (Nat.le_add_right _ _) (fun k above below => ?_) last.byte?
    have inner := text.byte (k - i) (by omega)
    rw [Nat.add_sub_cancel' above] at inner
    rw [inner]
    exact byte?_toUTF8_ne_zero clean _
  rw [nameAt, if_pos (by omega), stop, text.extract_eq, fromUTF8?_toUTF8, Option.getD_some]

end Elf.Symbol

end Disarm
