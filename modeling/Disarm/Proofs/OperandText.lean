import Disarm.Proofs.LineShape
/-!
Operands read back from their text. Names and numbers are runs of small letters and digits, and what
stands behind a run is no letter, so a text tells where each run ends. Main statement: the text of a
shift, an offset, a memory operand or a set of registers belongs to no other.
-/

namespace Disarm

open Text

/-! ### Names and numbers -/

theorem Register.name_inj {r s : Register} (h : r.name = s.name) : r = s := by
  revert r s
  decide +kernel

theorem Register.outside_name {p : Char → Prop} (hp : ∀ c, Letter c → ¬p c) (r : Register)
    (s : String) : Outside p (r.name ++ s) :=
  outside_append (r.over_name.mono hp) r.name_ne_empty s

theorem Piece.text_inj {s t : String} (h : signs [.text s] = signs [.text t]) : s = t := by
  rw [signs_text, signs_text] at h
  exact String.toList_inj.1 (Sign.map_char_inj h)

theorem Text.decimal_inj {m n : Nat} (h : toString m = toString n) : m = n := by
  have digits := congrArg String.toList h
  rw [Nat.toString_eq_ofList_toDigits, Nat.toString_eq_ofList_toDigits, String.toList_ofList,
    String.toList_ofList] at digits
  rw [← Nat.ofDigitChars_ten_toDigits (n := m), digits, Nat.ofDigitChars_ten_toDigits]

theorem Hex.places_inj {k m n : Nat} (hm : m < 16 ^ k) (hn : n < 16 ^ k)
    (h : places k m = places k n) : m = n := by
  have read := Numeral.digits_places hm hm
  rw [h, Numeral.digits_places hn hn] at read
  exact (Except.ok.inj read).symm

theorem Hex.text_inj {m n : Word} (h : text m.toNat = text n.toNat) : m = n := by
  have digits : Hex.digits m.toNat = Hex.digits n.toNat := String.ofList_inj.1 h
  have read := Numeral.digits_digits m.isLt
  rw [digits, Numeral.digits_digits n.isLt] at read
  exact BitVec.eq_of_toNat_eq (Except.ok.inj read).symm

/-! ### Shifts -/

namespace ShiftKind

theorem name_ne_empty (k : ShiftKind) : k.name ≠ "" := by
  cases k <;> decide

theorem name_ne_rrx (k : ShiftKind) : k.name ≠ "rrx" := by
  cases k <;> decide

theorem name_inj {k l : ShiftKind} (h : k.name = l.name) : k = l := by
  revert h
  cases k <;> cases l <;> decide

end ShiftKind

namespace Shift

def word : Shift → String
  | .none => ""
  | .constant kind _ | .register kind _ => kind.name
  | .extend => "rrx"

def amount : Shift → String
  | .none | .extend => ""
  | .constant _ n => " #" ++ toString n
  | .register _ r => " " ++ r.name

theorem text_eq (s : Shift) :
    s.text = if s.word = "" then "" else ", " ++ (s.word ++ s.amount) := by
  cases s with
  | none => rfl
  | constant k n =>
    rw [word, if_neg k.name_ne_empty, text, amount]
    simp only [String.append_assoc]
  | extend => rfl
  | register k r =>
    rw [word, if_neg k.name_ne_empty, text, amount]
    simp only [String.append_assoc]

theorem eq_none_of_word {s : Shift} (h : s.word = "") : s = .none := by
  cases s with
  | none => rfl
  | constant k n => exact absurd h k.name_ne_empty
  | extend => exact absurd h (by decide)
  | register k r => exact absurd h k.name_ne_empty

theorem over_word (s : Shift) : Over Letter s.word := by
  cases s with
  | none => exact over_empty
  | constant k n => exact k.over_name
  | extend => decide
  | register k r => exact k.over_name

theorem outside_amount (s : Shift) : Outside Letter s.amount := by
  cases s with
  | none => exact outside_empty
  | constant k n => exact outside_append (by decide) (by decide) _
  | extend => exact outside_empty
  | register k r => exact outside_append (by decide) (by decide) _

theorem amount_ne (n : Nat) (r : Register) : " #" ++ toString n ≠ " " ++ r.name := by
  intro h
  have letters : Over (· ≠ '#') (" " ++ r.name) :=
    over_append.2 ⟨by decide, r.over_name.mono fun c hc e => absurd (e ▸ hc) (by decide)⟩
  rw [← h] at letters
  exact absurd (over_append.1 letters).1 (by decide)

theorem eq_of_word_and_amount {s t : Shift} (hw : s.word = t.word) (ha : s.amount = t.amount) :
    s = t := by
  cases s with
  | none => exact (eq_none_of_word hw.symm).symm
  | extend =>
    cases t with
    | extend => rfl
    | none => exact absurd hw (by decide)
    | constant l n => exact absurd hw.symm l.name_ne_rrx
    | register l r => exact absurd hw.symm l.name_ne_rrx
  | constant k m =>
    cases t with
    | constant l n =>
      rw [ShiftKind.name_inj hw, decimal_inj ((String.append_right_inj _).1 ha)]
    | none => exact absurd hw k.name_ne_empty
    | extend => exact absurd hw k.name_ne_rrx
    | register l r => exact absurd ha (amount_ne m r)
  | register k q =>
    cases t with
    | register l r =>
      rw [ShiftKind.name_inj hw, Register.name_inj ((String.append_right_inj _).1 ha)]
    | none => exact absurd hw k.name_ne_empty
    | extend => exact absurd hw k.name_ne_rrx
    | constant l n => exact absurd ha.symm (amount_ne n q)

theorem text_inj {s t : Shift} (h : s.text = t.text) : s = t := by
  have written (u : String) : ", " ++ u ≠ "" := append_ne_empty (by decide) u
  rw [text_eq, text_eq] at h
  obtain ⟨side, -, spelled⟩ := alternative_inj (written _).symm (written _) h
  by_cases hs : s.word = ""
  · rw [eq_none_of_word hs, eq_none_of_word (side.1 hs)]
  · obtain ⟨hw, ha⟩ := Text.run_inj s.over_word t.over_word s.outside_amount t.outside_amount
      ((String.append_right_inj _).1 (spelled hs))
    exact eq_of_word_and_amount hw ha

theorem outside_text (s : Shift) : Outside Letter s.text := by
  rw [text_eq]
  split
  · exact outside_empty
  · exact outside_append (by decide) (by decide) _

end Shift

/-! ### Offsets -/

namespace Offset

theorem minus_inj {u v : Bool} {s t : String} (hs : Outside (· = '-') s)
    (ht : Outside (· = '-') t) (h : minus u ++ s = minus v ++ t) : u = v ∧ s = t := by
  have dash (b : Bool) : Over (· = '-') (minus b) := by cases b <;> decide
  obtain ⟨e, rest⟩ := Text.run_inj (dash u) (dash v) hs ht h
  refine ⟨?_, rest⟩
  revert e
  cases u <;> cases v <;> decide

/-- A constant is marked by a sign that no register has. -/
theorem text_ne (up : Bool) (n : Word) (up' : Bool) (r : Register) (s : Shift) :
    (immediate up n).text ≠ (register up' r s).text := by
  intro h
  have front : Over (· ≠ '#') (minus up' ++ r.name) := by
    refine over_append.2 ⟨by cases up' <;> decide, ?_⟩
    exact r.over_name.mono fun c hc e => absurd (e ▸ hc) (by decide)
  have filled : minus up' ++ r.name ≠ "" :=
    fun e => r.name_ne_empty (String.append_eq_empty_iff.1 e).2
  have unmarked : Outside (· = '#') (register up' r s).text := outside_append front filled _
  rw [← h] at unmarked
  simp only [text, String.append_assoc] at unmarked
  exact unmarked '#' (by rw [String.toList_append]; rfl) rfl

theorem text_inj {o p : Offset} (h : o.text = p.text) : o = p := by
  cases o with
  | immediate u m =>
    cases p with
    | immediate v n =>
      simp only [text, String.append_assoc, String.append_right_inj] at h
      obtain ⟨rfl, digits⟩ := minus_inj (outside_append (by decide) (by decide) _)
        (outside_append (by decide) (by decide) _) h
      rw [Hex.text_inj ((String.append_right_inj _).1 digits)]
    | register v q t => exact absurd h (text_ne u m v q t)
  | register u r s =>
    cases p with
    | immediate v n => exact absurd h.symm (text_ne v n u r s)
    | register v q t =>
      have dash : ∀ c, Letter c → c ≠ '-' := by
        rintro c hc rfl
        exact absurd hc (by decide)
      simp only [text, String.append_assoc] at h
      obtain ⟨rfl, rest⟩ := minus_inj (r.outside_name dash _) (q.outside_name dash _) h
      obtain ⟨name, shift⟩ :=
        Text.run_inj r.over_name q.over_name s.outside_text t.outside_text rest
      rw [Register.name_inj name, Shift.text_inj shift]

def behind (o : Offset) : String := if o.Omitted then "" else ", " ++ o.text

theorem eq_of_omitted {o : Offset} (h : o.Omitted) : o = .immediate true 0 := by
  cases o with
  | immediate up n =>
    obtain ⟨rfl, rfl⟩ := h
    rfl
  | register up r s => exact absurd h id

theorem behind_inj {o p : Offset} (h : o.behind = p.behind) : o = p := by
  have written (u : String) : ", " ++ u ≠ "" := append_ne_empty (by decide) u
  obtain ⟨side, -, spelled⟩ := alternative_inj (written _).symm (written _) h
  by_cases ho : o.Omitted
  · rw [eq_of_omitted ho, eq_of_omitted (side.1 ho)]
  · exact text_inj ((String.append_right_inj _).1 (spelled ho))

theorem outside_behind (o : Offset) : Outside Letter o.behind := by
  unfold behind
  split
  · exact outside_empty
  · exact outside_append (by decide) (by decide) _

theorem over_behind (o : Offset) : Over Inner o.behind := by
  unfold behind
  split
  · exact over_empty
  · exact over_append.2 ⟨by decide, o.over_text⟩

end Offset

/-! ### Memory operands -/

namespace Memory

def inside : Memory → String
  | .literal _ => ""
  | .preIndexed base offset _ => base.name ++ offset.behind
  | .postIndexed base _ | .unindexed base _ => base.name

def outside : Memory → String
  | .literal _ => ""
  | .preIndexed _ _ writeback => if writeback then "!" else ""
  | .postIndexed _ offset => ", " ++ offset.text
  | .unindexed _ option => ", " ++ ("\x7b" ++ (toString option.toNat ++ "\x7d"))

theorem fused_eq {m : Memory} (h : m.address? = none) :
    m.fused = [.text ("[" ++ (m.inside ++ ("]" ++ m.outside)))] := by
  cases m with
  | literal a => cases h
  | preIndexed r o writeback =>
    rw [fused, inside, outside, Offset.behind]
    split <;> simp only [String.append_assoc, String.append_empty]
  | postIndexed r o => simp only [fused, inside, outside, String.append_assoc]; rfl
  | unindexed r n => simp only [fused, inside, outside, String.append_assoc]; rfl

theorem over_inside (m : Memory) : Over (· ≠ ']') m.inside := by
  have inner : Over Inner m.inside := by
    cases m with
    | literal a => exact over_empty
    | preIndexed r o writeback => exact over_append.2 ⟨r.over_name.inner, o.over_behind⟩
    | postIndexed r o => exact r.over_name.inner
    | unindexed r n => exact r.over_name.inner
  exact inner.mono fun c hc e => absurd (e ▸ hc) (by decide)

theorem mark_ne (b : Bool) (t : String) : (if b then "!" else "") ≠ ", " ++ t := by
  intro h
  have mark : Over (· ≠ ',') (if b then "!" else "") := over_mark (by decide)
  rw [h] at mark
  exact absurd (over_append.1 mark).1 (by decide)

theorem offset_ne (o : Offset) (t : String) : o.text ≠ "\x7b" ++ t := by
  intro h
  have inner := o.over_text
  rw [h] at inner
  exact absurd (over_append.1 inner).1 (by decide)

/-- What stands behind the bracket gives the way of indexing. -/
theorem eq_of_inside_and_outside {m n : Memory} (hm : m.address? = none) (hn : n.address? = none)
    (hi : m.inside = n.inside) (ho : m.outside = n.outside) : m = n := by
  cases m with
  | literal a => cases hm
  | preIndexed r o b =>
    cases n with
    | literal a => cases hn
    | preIndexed q p c =>
      obtain ⟨name, offset⟩ :=
        Text.run_inj r.over_name q.over_name o.outside_behind p.outside_behind hi
      obtain ⟨mark, -⟩ := alternative_inj_bool (by decide) (by decide) ho
      rw [Register.name_inj name, Offset.behind_inj offset, mark]
    | postIndexed q p => exact absurd ho (mark_ne b _)
    | unindexed q k => exact absurd ho (mark_ne b _)
  | postIndexed r o =>
    cases n with
    | literal a => cases hn
    | preIndexed q p c => exact absurd ho.symm (mark_ne c _)
    | postIndexed q p =>
      rw [Register.name_inj hi, Offset.text_inj ((String.append_right_inj _).1 ho)]
    | unindexed q k => exact absurd ((String.append_right_inj _).1 ho) (offset_ne o _)
  | unindexed r j =>
    cases n with
    | literal a => cases hn
    | preIndexed q p c => exact absurd ho.symm (mark_ne c _)
    | postIndexed q p => exact absurd ((String.append_right_inj _).1 ho).symm (offset_ne p _)
    | unindexed q k =>
      have digits : toString j.toNat = toString k.toNat := by
        simp only [outside, String.append_right_inj, String.append_left_inj] at ho
        exact ho
      rw [Register.name_inj hi, BitVec.eq_of_toNat_eq (decimal_inj digits)]

theorem eq_literal {m : Memory} {a : Addr} (h : m.address? = some a) : m = .literal a := by
  cases m with
  | literal b => rw [Option.some.inj h]
  | _ => cases h

theorem signs_inj {m n : Memory} (h : Piece.signs m.fused = Piece.signs n.fused) : m = n := by
  rcases m.fused_cases with ⟨a, ha, em⟩ | ⟨hm, -⟩
  · rcases n.fused_cases with ⟨b, hb, en⟩ | ⟨hn, -⟩
    · rw [em, en] at h
      rw [eq_literal ha, eq_literal hb, Sign.address.inj (List.cons.inj h).1]
    · rw [em, fused_eq hn, Piece.signs_text, String.toList_append] at h
      cases (List.cons.inj h).1
  · rcases n.fused_cases with ⟨b, hb, en⟩ | ⟨hn, -⟩
    · rw [en, fused_eq hm, Piece.signs_text, String.toList_append] at h
      cases (List.cons.inj h).1
    · rw [fused_eq hm, fused_eq hn] at h
      obtain ⟨inside, outside⟩ := Text.run_inj m.over_inside n.over_inside
        (outside_append (by decide) (by decide) _) (outside_append (by decide) (by decide) _)
        ((String.append_right_inj _).1 (Piece.text_inj h))
      exact eq_of_inside_and_outside hm hn inside ((String.append_right_inj _).1 outside)

end Memory

/-! ### Other operands -/

namespace Operand

theorem mem_members (set : BitVec 16) (r : Register) :
    r ∈ members set ↔ set.getLsbD r.toNat = true := by
  rw [members, List.mem_map]
  constructor
  · rintro ⟨i, hi, rfl⟩
    obtain ⟨inside, bit⟩ := List.mem_filter.1 hi
    rwa [BitVec.toNat_ofNat, Nat.mod_eq_of_lt (List.mem_range.1 inside)]
  · intro bit
    exact ⟨r.toNat, List.mem_filter.2 ⟨List.mem_range.2 r.isLt, bit⟩, BitVec.ofNat_toNat 4 r⟩

theorem members_inj {s t : BitVec 16} (h : members s = members t) : s = t := by
  apply BitVec.eq_of_getLsbD_eq
  intro i hi
  have value : (BitVec.ofNat 4 i).toNat = i := by
    rw [BitVec.toNat_ofNat, Nat.mod_eq_of_lt hi]
  rw [← value, Bool.eq_iff_iff, ← mem_members, ← mem_members, h]

theorem names_inj {l m : List Register}
    (h : ", ".intercalate (l.map Register.name) = ", ".intercalate (m.map Register.name)) :
    l = m := by
  have run (l : List Register) : ∀ cs ∈ (l.map Register.name).map String.toList,
      cs ≠ [] ∧ ∀ c ∈ cs, Letter c := by
    intro cs hcs
    simp only [List.map_map, List.mem_map, Function.comp_apply] at hcs
    obtain ⟨r, -, rfl⟩ := hcs
    exact ⟨fun e => r.name_ne_empty (String.toList_eq_nil_iff.1 e), r.over_name⟩
  have lists := congrArg String.toList h
  rw [String.toList_intercalate, String.toList_intercalate] at lists
  have runs := intercalate_inj (a := ',') (by decide) (run l) (run m) lists
  have names := (List.map_inj_right fun _ _ => String.toList_inj.1).1 runs
  exact (List.map_inj_right fun _ _ => Register.name_inj).1 names

theorem registers_inj {s t : BitVec 16} {a b : Bool}
    (h : (registers s a).signs = (registers t b).signs) : s = t ∧ a = b := by
  have closed (s : BitVec 16) :
      Over (· ≠ '\x7d') (", ".intercalate ((members s).map Register.name)) :=
    (over_registers s).mono fun c hc e => absurd (e ▸ hc) (by decide)
  have text := Piece.text_inj h
  simp only [String.append_assoc, String.append_right_inj] at text
  obtain ⟨names, mark⟩ := Text.run_inj (closed s) (closed t)
    (outside_append (by decide) (by decide) _) (outside_append (by decide) (by decide) _) text
  obtain ⟨user, -⟩ := alternative_inj_bool (by decide) (by decide)
    ((String.append_right_inj _).1 mark)
  exact ⟨members_inj (names_inj names), user⟩

theorem immediate_inj {m n : Word} (h : (immediate m).signs = (immediate n).signs) : m = n :=
  Hex.text_inj ((String.append_right_inj _).1 (Piece.text_inj h))

theorem shifted_inj {r q : Register} {s t : Shift} (h : (shifted r s).signs = (shifted q t).signs) :
    r = q ∧ s = t := by
  obtain ⟨name, shift⟩ := Text.run_inj r.over_name q.over_name s.outside_text t.outside_text
    (Piece.text_inj h)
  exact ⟨Register.name_inj name, Shift.text_inj shift⟩

theorem immediate_ne_shifted (n : Word) (r : Register) (s : Shift) :
    (immediate n).signs ≠ (shifted r s).signs := by
  intro h
  have unmarked : Outside (· = '#') (r.name ++ s.text) :=
    r.outside_name (fun c hc e => absurd (e ▸ hc) (by decide)) _
  rw [← Piece.text_inj h] at unmarked
  exact unmarked '#' (by rw [String.toList_append]; rfl) rfl

end Operand

end Disarm
