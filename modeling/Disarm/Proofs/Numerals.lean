import Disarm.Proofs.Hexadecimal
import Mathlib.Data.List.TakeWhile
/-!
Numerals of addresses. A spelling is perhaps a mark, perhaps a sign, and then digits of either
case. What is no spelling is refused for the first character that is no digit, unless the digits in
front of it are too many already. Main statement: exactly the spellings of 32 bits are read, as their
values, and each refusal has one reason.
-/

namespace Disarm.Numeral

/-! ### Digits of either case -/

def HexDigit (c : Char) : Prop := c ∈ "0123456789abcdefABCDEF".toList

instance (c : Char) : Decidable (HexDigit c) := inferInstanceAs (Decidable (_ ∈ _))

def digitValue (c : Char) : Nat := "0123456789abcdef".toList.idxOf c.toLower

def valueAfter (n : Nat) (l : List Char) : Nat := l.foldl (fun n c => 16 * n + digitValue c) n

def value (l : List Char) : Nat := valueAfter 0 l

def leading (l : List Char) : List Char := l.takeWhile fun c => HexDigit c

theorem valueAfter_nil (n : Nat) : valueAfter n [] = n := rfl

theorem valueAfter_cons (n : Nat) (c : Char) (l : List Char) :
    valueAfter n (c :: l) = valueAfter (16 * n + digitValue c) l := rfl

theorem le_valueAfter (n : Nat) (l : List Char) : n ≤ valueAfter n l := by
  induction l generalizing n with
  | nil => exact Nat.le_refl n
  | cons c l ih =>
    have rest := ih (16 * n + digitValue c)
    rw [valueAfter_cons]
    omega

theorem leading_cons {c : Char} (digit : HexDigit c) (l : List Char) :
    leading (c :: l) = c :: leading l := List.takeWhile_cons_of_pos (decide_eq_true digit)

theorem leading_cons_of_not {c : Char} (other : ¬HexDigit c) (l : List Char) :
    leading (c :: l) = [] := List.takeWhile_cons_of_neg (by simpa using other)

theorem leading_eq_self {l : List Char} : leading l = l ↔ ∀ c ∈ l, HexDigit c := by
  simp only [leading, List.takeWhile_eq_self_iff, decide_eq_true_eq]

/-- A law of characters that holds from 128 on is left to the 128 below. -/
theorem forall_of_ascii {p : Char → Prop} (low : ∀ n < 128, p (Char.ofNat n))
    (high : ∀ c : Char, 128 ≤ c.toNat → p c) (c : Char) : p c := by
  by_cases ascii : c.toNat < 128
  · have here := low c.toNat ascii
    rwa [Char.ofNat_toNat] at here
  · exact high c (Nat.le_of_not_lt ascii)

theorem HexDigit.ascii {c : Char} (h : HexDigit c) : c.toNat < 128 := by
  have all : "0123456789abcdefABCDEF".toList.all (fun c => c.toNat < 128) := by decide
  exact of_decide_eq_true (List.all_eq_true.1 all c h)

theorem digit?_of_high {c : Char} (h : 128 ≤ c.toNat) : digit? 16 c = none := by
  have beyond (d : Char) (small : d.toNat < 128) : ¬c ≤ d := by
    intro le
    have : c.toNat ≤ d.toNat := Char.le_def.1 le
    omega
  rw [digit?, if_neg fun between => beyond '9' (by decide) between.2,
    if_neg fun between => beyond 'z' (by decide) between.2,
    if_neg fun between => beyond 'Z' (by decide) between.2]
  rfl

theorem digit?_eq (c : Char) :
    digit? 16 c = if HexDigit c then some (digitValue c) else none := by
  revert c
  refine forall_of_ascii (by decide +kernel) fun c high => ?_
  rw [digit?_of_high high, if_neg fun digit => Nat.not_lt.2 high digit.ascii]

theorem toLower_of_high {c : Char} (h : 128 ≤ c.toNat) : c.toLower = c := by
  apply dif_neg
  rintro ⟨-, le⟩
  have : c.toNat ≤ 90 := UInt32.le_iff_toNat_le.1 le
  omega

theorem digit?_toLower (c : Char) : digit? 16 c.toLower = digit? 16 c := by
  revert c
  exact forall_of_ascii (by decide +kernel) fun c high => by rw [toLower_of_high high]

/-! ### Reading digits -/

/-- Digits are read up to the first other character. They are refused for their value if it is too
large by then, and else for that character. -/
theorem digits_eq {bound n : Nat} (h : n < bound) (l : List Char) :
    digits 16 bound n l =
      if bound ≤ valueAfter n (leading l) then .error .tooLarge
      else if leading l = l then .ok (valueAfter n l) else .error .invalidDigit := by
  induction l generalizing n with
  | nil =>
    have small : ¬bound ≤ valueAfter n (leading []) := Nat.not_le.2 h
    rw [if_neg small]
    rfl
  | cons c l ih =>
    rw [digits, digit?_eq]
    by_cases digit : HexDigit c
    · rw [if_pos digit, leading_cons digit, valueAfter_cons, valueAfter_cons]
      dsimp only
      -- Once the value is too large it stays so, whatever digits follow.
      by_cases small : 16 * n + digitValue c < bound
      · rw [if_pos small, ih small]
        simp only [List.cons.injEq, true_and]
      · have large : bound ≤ valueAfter (16 * n + digitValue c) (leading l) :=
          Nat.le_trans (Nat.le_of_not_lt small) (le_valueAfter _ _)
        rw [if_neg small, if_pos large]
    · rw [if_neg digit, leading_cons_of_not digit, valueAfter_nil, if_neg (Nat.not_le.2 h),
        if_neg (List.cons_ne_nil c l).symm]

theorem digits_eq_ok {bound n v : Nat} (h : n < bound) {l : List Char} :
    digits 16 bound n l = .ok v ↔ (∀ c ∈ l, HexDigit c) ∧ valueAfter n l = v ∧ v < bound := by
  rw [digits_eq h]
  constructor
  · intro read
    split at read
    · cases read
    · next small =>
      split at read
      · next all =>
        rw [all] at small
        cases read
        exact ⟨leading_eq_self.1 all, rfl, Nat.lt_of_not_le small⟩
      · cases read
  · rintro ⟨all, rfl, small⟩
    rw [leading_eq_self.2 all, if_neg (Nat.not_le.2 small), if_pos rfl]

theorem digits_map_toLower (bound n : Nat) (l : List Char) :
    digits 16 bound n (l.map Char.toLower) = digits 16 bound n l := by
  induction l generalizing n with
  | nil => rfl
  | cons c l ih => simp only [List.map_cons, digits, digit?_toLower, ih]

/-! ### Marks and signs -/

/-- What is left of a text without one mark at its front. -/
def unmarked (l : List Char) : List Char := if ['0', 'x'] <+: l then l.drop 2 else l

def unsigned (l : List Char) : List Char := if l.head? = some '+' then l.tail else l

def Whole (l : List Char) : Prop := unsigned l ≠ [] ∧ ∀ c ∈ unsigned l, HexDigit c

/-- A way to write an address. -/
structure Spelling where
  marked : Bool
  signed : Bool
  digits : List Char
  nonempty : digits ≠ []
  hex : ∀ c ∈ digits, HexDigit c

namespace Spelling

def mark (p : Spelling) : List Char := if p.marked then ['0', 'x'] else []

def sign (p : Spelling) : List Char := if p.signed then ['+'] else []

def text (p : Spelling) : List Char := p.mark ++ (p.sign ++ p.digits)

theorem unsigned_eq (p : Spelling) : unsigned (p.sign ++ p.digits) = p.digits := by
  unfold sign
  cases p.signed with
  | true => rfl
  | false =>
    apply if_neg
    intro plus
    have digit : HexDigit '+' := p.hex '+' (List.mem_of_mem_head? plus)
    exact absurd digit (by decide)

theorem unmarked_text (p : Spelling) : unmarked p.text = p.sign ++ p.digits := by
  have letter : 'x' ∉ p.sign ++ p.digits := by
    rw [List.mem_append, not_or]
    refine ⟨?_, fun digit => absurd (p.hex 'x' digit) (by decide)⟩
    unfold sign
    cases p.signed <;> decide
  unfold text mark
  cases p.marked with
  | true => rfl
  | false => exact if_neg fun opens => letter (opens.subset (by decide))

theorem exists_text_eq {l : List Char} : (∃ p : Spelling, p.text = l) ↔ Whole (unmarked l) := by
  constructor
  · rintro ⟨p, rfl⟩
    rw [p.unmarked_text, Whole, p.unsigned_eq]
    exact ⟨p.nonempty, p.hex⟩
  · rintro ⟨nonempty, hex⟩
    refine ⟨⟨['0', 'x'] <+: l, (unmarked l).head? = some '+', _, nonempty, hex⟩, ?_⟩
    have signed : (if (unmarked l).head? = some '+' then ['+'] else []) ++ unsigned (unmarked l) =
        unmarked l := by
      rw [unsigned]
      split
      · next plus =>
        obtain ⟨m, e⟩ := List.head?_eq_some_iff.1 plus
        rw [e]
        rfl
      · rfl
    simp only [text, mark, sign, decide_eq_true_eq, signed]
    unfold unmarked
    split
    · next opens =>
      obtain ⟨m, rfl⟩ := opens
      rfl
    · rfl

end Spelling

/-! ### Addresses -/

theorem address_eq_read (s : String) :
    address s = (read 16 (2 ^ 32) (unmarked s.toList)).map (BitVec.ofNat 32) := by
  unfold address unmarked
  split
  · next l e =>
    rw [e]
    rfl
  · next other =>
    rw [if_neg fun opens => other (s.toList.drop 2) (List.prefix_iff_eq_append.1 opens).symm]
    rfl

theorem read_eq_digits {bound : Nat} {l : List Char} (h : l ≠ []) : read 16 bound l =
    if unsigned l = [] then .error .invalidDigit else digits 16 bound 0 (unsigned l) := by
  unfold read
  split
  · exact absurd rfl h
  · rfl
  · next l alone => exact (if_neg alone).symm
  · next unlike =>
    have same : unsigned l = l := if_neg fun plus => by
      obtain ⟨m, rfl⟩ := List.head?_eq_some_iff.1 plus
      exact unlike m rfl
    rw [same, if_neg h]

/-- Why text without a mark is refused: there is none, or the digits it starts with are too many, or
neither and there is something else than digits. -/
inductive Refuses (bound : Nat) (l : List Char) : NumeralError → Prop where
  | empty (nothing : l = []) : Refuses bound l .empty
  | tooLarge (large : bound ≤ value (leading (unsigned l))) : Refuses bound l .tooLarge
  | invalidDigit (something : l ≠ []) (small : value (leading (unsigned l)) < bound)
    (other : ¬Whole l) : Refuses bound l .invalidDigit

section Bounded

variable {bound : Nat} (positive : 0 < bound) {l : List Char} {e : NumeralError}
include positive

theorem read_of_refuses (h : Refuses bound l e) : read 16 bound l = .error e := by
  cases h with
  | empty nothing =>
    rw [nothing]
    rfl
  | tooLarge large =>
    have some_digit : unsigned l ≠ [] := by
      intro alone
      rw [alone] at large
      exact Nat.not_le.2 positive large
    have something : l ≠ [] := by
      rintro rfl
      exact some_digit rfl
    rw [read_eq_digits something, if_neg some_digit, digits_eq positive]
    exact if_pos large
  | invalidDigit something small other =>
    rw [read_eq_digits something]
    by_cases alone : unsigned l = []
    · exact if_pos alone
    · rw [if_neg alone, digits_eq positive,
        if_neg fun all => other ⟨alone, leading_eq_self.1 all⟩]
      exact if_neg (Nat.not_le.2 small)

theorem read_of_whole (whole : Whole l) (small : value (unsigned l) < bound) :
    read 16 bound l = .ok (value (unsigned l)) := by
  have something : l ≠ [] := by
    rintro rfl
    exact whole.1 rfl
  rw [read_eq_digits something, if_neg whole.1]
  exact (digits_eq_ok positive).2 ⟨whole.2, rfl, small⟩

omit positive in
theorem refuses_or_whole (bound : Nat) (l : List Char) :
    (∃ e, Refuses bound l e) ∨ Whole l ∧ value (unsigned l) < bound := by
  by_cases nothing : l = []
  · exact .inl ⟨_, .empty nothing⟩
  · by_cases large : bound ≤ value (leading (unsigned l))
    · exact .inl ⟨_, .tooLarge large⟩
    · have small := Nat.lt_of_not_le large
      by_cases whole : Whole l
      · rw [leading_eq_self.2 whole.2] at small
        exact .inr ⟨whole, small⟩
      · exact .inl ⟨_, .invalidDigit nothing small whole⟩

theorem read_eq_error : read 16 bound l = .error e ↔ Refuses bound l e := by
  refine ⟨fun read => ?_, read_of_refuses positive⟩
  rcases refuses_or_whole bound l with ⟨d, refused⟩ | ⟨whole, small⟩
  · cases read.symm.trans (read_of_refuses positive refused)
    exact refused
  · cases read.symm.trans (read_of_whole positive whole small)

theorem read_eq_ok {n : Nat} :
    read 16 bound l = .ok n ↔ Whole l ∧ value (unsigned l) = n ∧ n < bound := by
  constructor
  · intro read
    rcases refuses_or_whole bound l with ⟨d, refused⟩ | ⟨whole, small⟩
    · cases read.symm.trans (read_of_refuses positive refused)
    · cases read.symm.trans (read_of_whole positive whole small)
      exact ⟨whole, rfl, small⟩
  · rintro ⟨whole, rfl, small⟩
    exact read_of_whole positive whole small

end Bounded

theorem address_eq_error {s : String} {e : NumeralError} :
    address s = .error e ↔ Refuses (2 ^ 32) (unmarked s.toList) e := by
  rw [address_eq_read, ← read_eq_error (by decide)]
  cases read 16 (2 ^ 32) (unmarked s.toList) with
  | error d =>
    change Except.error d = _ ↔ _
    rw [Except.error.injEq, Except.error.injEq]
  | ok n => exact ⟨nofun, nofun⟩

theorem address_eq_ok {s : String} {v : BitVec 32} : address s = .ok v ↔
    ∃ p : Spelling, p.text = s.toList ∧ value p.digits = v.toNat := by
  rw [address_eq_read]
  constructor
  · intro h
    cases inner : read 16 (2 ^ 32) (unmarked s.toList) with
    | error e =>
      rw [inner] at h
      cases h
    | ok n =>
      obtain ⟨whole, rfl, small⟩ := (read_eq_ok (by decide)).1 inner
      rw [inner] at h
      cases h
      obtain ⟨p, text⟩ := Spelling.exists_text_eq.2 whole
      refine ⟨p, text, ?_⟩
      rw [BitVec.toNat_ofNat, Nat.mod_eq_of_lt small, ← text, p.unmarked_text, p.unsigned_eq]
  · rintro ⟨p, text, digits⟩
    have whole : Whole (unmarked s.toList) := Spelling.exists_text_eq.1 ⟨p, text⟩
    have rest : unsigned (unmarked s.toList) = p.digits := by
      rw [← text, p.unmarked_text, p.unsigned_eq]
    rw [(read_eq_ok (by decide)).2 ⟨whole, by rw [rest]; exact digits, v.isLt⟩]
    exact congrArg Except.ok (BitVec.ofNat_toNat 32 v)

theorem mapError_message {α : Type} {r : Except NumeralError α} {e : NumeralError} :
    r.mapError NumeralError.message = .error e.message ↔ r = .error e := by
  cases r with
  | error d => cases d <;> cases e <;> simp [Except.mapError, NumeralError.message]
  | ok a => exact ⟨nofun, nofun⟩

/-! ### Numbers that are written -/

/-- Text that is a padded number but for capitals is digits with that value. -/
theorem digits_of_toLower {width : Nat} {v : BitVec 32} {t : String}
    (h : t.toLower = Hex.padded width v.toNat) :
    t.toList ≠ [] ∧ (∀ c ∈ t.toList, HexDigit c) ∧ value t.toList = v.toNat := by
  have lower : t.toList.map Char.toLower = (Hex.digits v.toNat).leftpad width '0' := by
    have mapped : t.toLower = t.map Char.toLower := rfl
    rw [← String.toList_map, ← mapped, h, Hex.padded, String.toList_ofList]
  have read : digits 16 (2 ^ 32) 0 t.toList = .ok v.toNat := by
    rw [← digits_map_toLower, lower, List.leftpad, digits_zeros (by decide), digits_digits v.isLt]
  obtain ⟨hex, digits, -⟩ := (digits_eq_ok (by decide)).1 read
  refine ⟨?_, hex, digits⟩
  intro empty
  rw [empty] at lower
  exact Nat.toDigits_ne_nil (List.append_eq_nil_iff.1 lower.symm).2

/-- Exactly the spellings of 32 bits are read, as their values; text that is refused is refused for
its emptiness, for the digits it starts with or else for a character; and however a number is written,
in digits of either case and padded or not, it is read. -/
theorem address_iff (s : String) :
    (∀ v, (address s).mapError NumeralError.message = .ok v ↔
      ∃ p : Spelling, p.text = s.toList ∧ value p.digits = v.toNat) ∧
    ((address s).mapError NumeralError.message = .error "cannot parse integer from empty string" ↔
      unmarked s.toList = []) ∧
    ((address s).mapError NumeralError.message = .error "number too large to fit in target type" ↔
      2 ^ 32 ≤ value (leading (unsigned (unmarked s.toList)))) ∧
    ((address s).mapError NumeralError.message = .error "invalid digit found in string" ↔
      unmarked s.toList ≠ [] ∧ value (leading (unsigned (unmarked s.toList))) < 2 ^ 32 ∧
        ∀ p : Spelling, p.text ≠ s.toList) ∧
    ∀ (v : BitVec 32) (width : Nat) (t : String), t.toLower = Hex.padded width v.toNat →
      address t = .ok v ∧ address ("0x" ++ t) = .ok v := by
  have refused (e : NumeralError) := mapError_message.trans (address_eq_error (s := s) (e := e))
  refine ⟨fun v => ?_, (refused .empty).trans ?_, (refused .tooLarge).trans ?_,
    (refused .invalidDigit).trans ?_, fun v width t h => ?_⟩
  · rw [← address_eq_ok]
    cases address s with
    | error e => exact ⟨nofun, nofun⟩
    | ok w => simp only [Except.mapError, Except.ok.injEq]
  · exact ⟨fun | .empty nothing => nothing, .empty⟩
  · exact ⟨fun | .tooLarge large => large, .tooLarge⟩
  · rw [← not_exists, Spelling.exists_text_eq]
    exact ⟨fun | .invalidDigit something small other => ⟨something, small, other⟩,
      fun ⟨something, small, other⟩ => .invalidDigit something small other⟩
  · obtain ⟨nonempty, hex, digits⟩ := digits_of_toLower h
    have plain : address t = .ok v :=
      address_eq_ok.2 ⟨⟨false, false, _, nonempty, hex⟩, rfl, digits⟩
    refine ⟨plain, address_eq_ok.2 ⟨⟨true, false, _, nonempty, hex⟩, ?_, digits⟩⟩
    rw [String.toList_append]
    rfl

/-- A mark, a sign, zeros and capitals may come together, but a mark comes before a sign and only
once, and of two flaws the first one counts. -/
theorem address_iff_marked :
    (address "0x+00000000fF").mapError NumeralError.message = .ok 255 ∧
    (address "0x").mapError NumeralError.message =
      .error "cannot parse integer from empty string" ∧
    (address "100000000g").mapError NumeralError.message =
      .error "number too large to fit in target type" ∧
    (address "0x0x1").mapError NumeralError.message = .error "invalid digit found in string" ∧
    ("DeadBeef".toLower = Hex.padded 8 (0xdeadbeef : BitVec 32).toNat ∧
      address ("0x" ++ "DeadBeef") = .ok 0xdeadbeef) := by
  have written : "DeadBeef".toLower = Hex.padded 8 (0xdeadbeef : BitVec 32).toNat := by
    decide +kernel
  have twice : ∀ p : Spelling, p.text ≠ "0x0x1".toList := by
    intro p text
    have whole : Whole (unmarked "0x0x1".toList) := Spelling.exists_text_eq.1 ⟨p, text⟩
    exact absurd (whole.2 'x' (by decide)) (by decide)
  refine ⟨?_, (address_iff _).2.1.2 (by decide), (address_iff _).2.2.1.2 (by decide),
    (address_iff _).2.2.2.1.2 ⟨by decide, by decide, twice⟩,
    written, ((address_iff "").2.2.2.2 _ 8 _ written).2⟩
  have all : "00000000fF".toList.all (fun c => HexDigit c) := by decide
  have hex : ∀ c ∈ "00000000fF".toList, HexDigit c :=
    fun c hc => of_decide_eq_true (List.all_eq_true.1 all c hc)
  exact ((address_iff _).1 255).2 ⟨⟨true, true, "00000000fF".toList, by decide, hex⟩, rfl, rfl⟩

end Disarm.Numeral
