import Disarm.Text.Hex
import Disarm.Text.Numeral
import Mathlib.Algebra.Ring.Nat
/-!
Hexadecimal digits by place. Main statements: a number that has at most as many digits as the width is
padded to exactly the digits of its lowest places, and its digits, padded or not, are read as the
number.
-/

namespace Disarm

namespace Hex

def places : Nat → Nat → List Char
  | 0, _ => []
  | k + 1, n => places k (n / 16) ++ [Nat.digitChar (n % 16)]

theorem places_zero (k : Nat) : places k 0 = List.replicate k '0' := by
  induction k with
  | zero => rfl
  | succ k ih => rw [places, Nat.zero_div, ih, List.replicate_succ']; rfl

theorem length_places (k n : Nat) : (places k n).length = k := by
  induction k generalizing n with
  | zero => rfl
  | succ k ih => rw [places, List.length_append, ih, List.length_singleton]

theorem leftpad_digits {k n : Nat} (h : n < 16 ^ (k + 1)) :
    (digits n).leftpad (k + 1) '0' = places (k + 1) n := by
  induction k generalizing n with
  | zero =>
    have small : n < 16 := h
    rw [digits, Nat.toDigits_of_lt_base small, places, places, Nat.mod_eq_of_lt small]
    rfl
  | succ k ih =>
    by_cases hn : n < 16
    · rw [digits, Nat.toDigits_of_lt_base hn, places, Nat.div_eq_of_lt hn, places_zero,
        Nat.mod_eq_of_lt hn]
      rfl
    · have hq : n / 16 < 16 ^ (k + 1) := by
        rw [Nat.pow_succ] at h
        exact Nat.div_lt_of_lt_mul (by rwa [Nat.mul_comm] at h)
      rw [places, ← ih hq, digits, digits, Nat.toDigits_of_base_le (by decide) (Nat.le_of_not_lt hn)]
      simp only [List.leftpad, List.length_append, List.length_singleton, List.append_assoc]
      congr 2
      omega

/-- An address in marked form has eight digits, whatever its value. -/
theorem marked_eq_places (a : BitVec 32) :
    marked a.toNat = "0x" ++ String.ofList (places 8 a.toNat) := by
  rw [marked, padded, leftpad_digits (k := 7) a.isLt]

end Hex

/-! ### Digits that are read -/

namespace Numeral

theorem digits_append (radix bound n : Nat) (l m : List Char) :
    digits radix bound n (l ++ m) =
      (digits radix bound n l).bind fun v => digits radix bound v m := by
  induction l generalizing n with
  | nil => rfl
  | cons c l ih =>
    rw [List.cons_append, digits, digits]
    cases digit? radix c with
    | none => rfl
    | some d =>
      dsimp only
      split
      · exact ih _
      · rfl

theorem digit?_digitChar {d : Nat} (h : d < 16) : digit? 16 d.digitChar = some d := by
  have all : ∀ d < 16, digit? 16 (Nat.digitChar d) = some d := by decide
  exact all d h

theorem digits_places {bound k n : Nat} (small : n < bound) (h : n < 16 ^ k) :
    digits 16 bound 0 (Hex.places k n) = .ok n := by
  induction k generalizing n with
  | zero =>
    rw [Nat.lt_one_iff.1 h]
    rfl
  | succ k ih =>
    have high : n / 16 < 16 ^ k := Nat.div_lt_of_lt_mul (by rwa [Nat.pow_succ, Nat.mul_comm] at h)
    rw [Hex.places, digits_append, ih (Nat.lt_of_le_of_lt (Nat.div_le_self n 16) small) high]
    change digits 16 bound (n / 16) [Nat.digitChar (n % 16)] = .ok n
    rw [digits, digit?_digitChar (Nat.mod_lt n (by decide))]
    dsimp only
    rw [Nat.div_add_mod, if_pos small, digits]

theorem digits_zeros {bound : Nat} (h : 0 < bound) (k : Nat) (l : List Char) :
    digits 16 bound 0 (List.replicate k '0' ++ l) = digits 16 bound 0 l := by
  rw [digits_append, ← Hex.places_zero, digits_places h (Nat.pow_pos (by decide))]
  rfl

theorem digits_digits {bound n : Nat} (small : n < bound) :
    digits 16 bound 0 (Hex.digits n) = .ok n := by
  have wide : n < 16 ^ (n + 1) :=
    Nat.lt_of_lt_of_le (Nat.lt_pow_self (by decide)) (Nat.pow_le_pow_right (by decide) n.le_succ)
  rw [← digits_zeros (Nat.zero_lt_of_lt small) (n + 1 - (Hex.digits n).length)]
  change digits 16 bound 0 ((Hex.digits n).leftpad (n + 1) '0') = _
  rw [Hex.leftpad_digits wide, digits_places small wide]

end Numeral

end Disarm
