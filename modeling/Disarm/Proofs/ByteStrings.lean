import Disarm.Image
import Mathlib.Logic.Basic
/-!
Byte strings offset by offset. Each way to make a byte string is described by the bytes that can be
read from it. Main statement: an overlay shows what was laid over where that lies and what was there
before elsewhere.
-/

namespace Disarm

namespace Bytes

variable {b s : ByteArray} {i j len n : Nat}

theorem byte?_eq_getElem? (b : ByteArray) (i : Nat) : byte? b i = b.data[i]? := by
  unfold byte?
  split
  · next h =>
    rw [Array.getElem?_eq_getElem h]
    rfl
  · next h =>
    rw [Array.getElem?_eq_none (Nat.le_of_not_lt h)]

theorem byte?_of_lt (h : i < b.size) : byte? b i = some b[i] := dif_pos h

theorem byte?_of_le (h : b.size ≤ i) : byte? b i = none := dif_neg (Nat.not_lt.2 h)

theorem lt_size_of_byte? {x : UInt8} (h : byte? b i = some x) : i < b.size := by
  by_cases hi : i < b.size
  · exact hi
  · rw [byte?_of_le (Nat.le_of_not_lt hi)] at h
    cases h

theorem byte?_append : byte? (b ++ s) i = if i < b.size then byte? b i else byte? s (i - b.size) := by
  simp only [byte?_eq_getElem?, ByteArray.data_append, Array.getElem?_append]
  rfl

theorem size_extract_of_le (h : i + n ≤ b.size) : (b.extract i (i + n)).size = n := by
  rw [ByteArray.size_extract]
  omega

theorem byte?_extract : byte? (b.extract i j) n = if i + n < j then byte? b (i + n) else none := by
  by_cases hb : i + n < b.size
  · by_cases hj : i + n < j
    · have hn : n < (b.extract i j).size := by
        rw [ByteArray.size_extract]
        omega
      rw [if_pos hj, byte?_of_lt hn, byte?_of_lt hb, ByteArray.getElem_extract]
    · have hn : (b.extract i j).size ≤ n := by
        rw [ByteArray.size_extract]
        omega
      rw [if_neg hj, byte?_of_le hn]
  · have hn : (b.extract i j).size ≤ n := by
      rw [ByteArray.size_extract]
      omega
    rw [byte?_of_le hn, byte?_of_le (Nat.le_of_not_lt hb), ite_self]

theorem byte?_push {x : UInt8} :
    byte? (b.push x) i = if i = b.size then some x else byte? b i := by
  simp only [byte?_eq_getElem?, ByteArray.data_push, Array.getElem?_push]
  rfl

theorem byte?_zeros : byte? (zeros n) i = if i < n then some 0 else none := by
  induction n using Nat.strongRecOn generalizing i with
  | _ n ih =>
    rw [zeros]
    by_cases h0 : n = 0
    · subst h0
      rw [if_pos rfl, if_neg (Nat.not_lt_zero i)]
      rfl
    -- Two halves, and one more byte if the number is odd.
    · have half := fun {i} => ih (n / 2) (by omega) (i := i)
      have doubled : byte? (zeros (n / 2) ++ zeros (n / 2)) i =
          if i < n / 2 + n / 2 then some 0 else none := by
        rw [byte?_append, half, half, size_zeros]
        by_cases hi : i < n / 2
        · have hd : i < n / 2 + n / 2 := by omega
          rw [if_pos hi, if_pos hi, if_pos hd]
        · rw [if_neg hi]
          exact if_congr (by omega) rfl rfl
      have size : (zeros (n / 2) ++ zeros (n / 2)).size = n / 2 + n / 2 := by
        rw [ByteArray.size_append, size_zeros]
      rw [if_neg h0]
      split
      · next even =>
        rw [doubled]
        exact if_congr (by omega) rfl rfl
      · next odd =>
        rw [byte?_push, size, doubled]
        by_cases hi : i = n / 2 + n / 2
        · rw [if_pos hi, if_pos (by omega)]
        · rw [if_neg hi]
          exact if_congr (by omega) rfl rfl

theorem overlay_eq_append :
    overlay b i s = b.extract 0 i ++ s ++ b.extract (i + s.size) b.size := by
  have width : min s.size (s.data.size - 0) = s.size := Nat.min_self s.size
  rw [overlay, ByteArray.copySlice_eq_append, width, Nat.zero_add, ByteArray.extract_zero_size]
  rfl

theorem size_overlay (h : i + s.size ≤ b.size) : (overlay b i s).size = b.size := by
  rw [overlay_eq_append]
  simp only [ByteArray.size_append, ByteArray.size_extract]
  omega

theorem byte?_overlay (h : i + s.size ≤ b.size) :
    byte? (overlay b i s) n =
      if i ≤ n ∧ n < i + s.size then byte? s (n - i) else byte? b n := by
  have before : (b.extract 0 i).size = i := by
    rw [ByteArray.size_extract]
    omega
  -- Three zones: before the overlay, under it and after it.
  rw [overlay_eq_append, ByteArray.append_assoc, byte?_append, before]
  by_cases low : n < i
  · rw [if_pos low, if_neg (by omega), byte?_extract, Nat.zero_add, if_pos low]
  · rw [if_neg low, byte?_append]
    by_cases inside : n < i + s.size
    · rw [if_pos (by omega), if_pos ⟨Nat.le_of_not_lt low, inside⟩]
    · have place : i + s.size + (n - i - s.size) = n := by omega
      rw [if_neg (by omega), if_neg (by omega), byte?_extract, place]
      split
      · rfl
      · next out => rw [byte?_of_le (Nat.le_of_not_lt out)]

theorem word?_eq_some {f : Nat → UInt8} (h : ∀ k < 4, byte? b (i + k) = some (f k)) :
    word? b i = some (Word.ofBytes (f 0) (f 1) (f 2) (f 3)) := by
  have h₀ := h 0 (by decide)
  have h₁ := h 1 (by decide)
  have h₂ := h 2 (by decide)
  have h₃ := h 3 (by decide)
  rw [Nat.add_zero] at h₀
  simp only [word?, h₀, h₁, h₂, h₃, Option.bind_eq_bind, Option.bind_some]
  rfl

end Bytes

namespace Word

def byte (w : Word) (k : Nat) : UInt8 := ⟨w.field (8 * k) 8⟩

theorem ofBytes_byte (w : Word) : ofBytes (w.byte 0) (w.byte 1) (w.byte 2) (w.byte 3) = w := by
  unfold ofBytes byte field
  ext i hi
  simp only [BitVec.getElem_append, BitVec.getElem_extractLsb']
  rw [← BitVec.getLsbD_eq_getElem hi]
  split
  · rw [Nat.mul_zero, Nat.zero_add]
  · split
    · rw [Nat.mul_one, Nat.add_sub_cancel' (by omega)]
    · split
      · rw [Nat.sub_sub, Nat.add_sub_cancel' (by omega)]
      · rw [Nat.sub_sub, Nat.sub_sub, Nat.add_sub_cancel' (by omega)]

theorem byte_ofBytes (b₀ b₁ b₂ b₃ : UInt8) :
    (ofBytes b₀ b₁ b₂ b₃).byte 0 = b₀ ∧ (ofBytes b₀ b₁ b₂ b₃).byte 1 = b₁ ∧
    (ofBytes b₀ b₁ b₂ b₃).byte 2 = b₂ ∧ (ofBytes b₀ b₁ b₂ b₃).byte 3 = b₃ := by
  have bits (k : Nat) (b : UInt8)
      (h : ∀ i < 8, (ofBytes b₀ b₁ b₂ b₃).getLsbD (8 * k + i) = b.toBitVec.getLsbD i) :
      (ofBytes b₀ b₁ b₂ b₃).byte k = b := by
    refine UInt8.toBitVec_inj.1 (BitVec.eq_of_getLsbD_eq fun i hi => ?_)
    change ((ofBytes b₀ b₁ b₂ b₃).extractLsb' (8 * k) 8).getLsbD i = _
    rw [BitVec.getLsbD_extractLsb', decide_eq_true hi, Bool.true_and, h i hi]
  unfold ofBytes at bits ⊢
  simp only [BitVec.getLsbD_append] at bits
  refine ⟨bits 0 b₀ fun i hi => ?_, bits 1 b₁ fun i hi => ?_, bits 2 b₂ fun i hi => ?_,
    bits 3 b₃ fun i hi => ?_⟩
  · rw [if_pos (by omega), Nat.mul_zero, Nat.zero_add]
  · rw [if_neg (by omega), if_pos (by omega), Nat.mul_one, Nat.add_sub_cancel_left]
  · rw [if_neg (by omega), if_neg (by omega), if_pos (by omega)]
    congr 1
    omega
  · rw [if_neg (by omega), if_neg (by omega), if_neg (by omega)]
    congr 1
    omega

end Word

/-- Four bytes in the image make the word that is fetched. -/
theorem Image.fetch_eq_ok {i : Image} {a : Addr} {f : Nat → UInt8} (aligned : a.Aligned)
    (above : i.base ≤ a)
    (h : ∀ k < 4, Bytes.byte? i.data ((a - i.base).toNat + k) = some (f k)) :
    i.fetch a = .ok (Word.ofBytes (f 0) (f 1) (f 2) (f 3)) := by
  have word := Bytes.word?_eq_some h
  rw [fetch, if_pos aligned, word?, if_pos above, word]

end Disarm
