import Disarm.Proofs.LineText
/-!
The characters of printed text. A mnemonic consists of small letters and digits, and operands of
visible ASCII characters. Main statement: a piece of a line holds visible characters only, apart from
the tab after the mnemonic and the line end.
-/

namespace Disarm

namespace Text

def Over (p : Char → Prop) (s : String) : Prop := ∀ c ∈ s.toList, p c

instance (p : Char → Prop) [DecidablePred p] (s : String) : Decidable (Over p s) :=
  List.decidableBAll p s.toList

/-- The visible characters of ASCII and the blank. -/
def Visible (c : Char) : Prop := ' ' ≤ c ∧ c ≤ '~'

instance (c : Char) : Decidable (Visible c) := inferInstanceAs (Decidable (_ ∧ _))

def Letter (c : Char) : Prop := 'a' ≤ c ∧ c ≤ 'z' ∨ '0' ≤ c ∧ c ≤ '9'

instance (c : Char) : Decidable (Letter c) := inferInstanceAs (Decidable (_ ∨ _))

def Inner (c : Char) : Prop := Letter c ∨ c ∈ [',', ' ', '#', '-']

instance (c : Char) : Decidable (Inner c) := inferInstanceAs (Decidable (_ ∨ _))

variable {p q : Char → Prop} {s t : String}

theorem Over.mono (h : Over p s) (hpq : ∀ c, p c → q c) : Over q s := fun c hc => hpq c (h c hc)

theorem over_append : Over p (s ++ t) ↔ Over p s ∧ Over p t := by
  simp only [Over, String.toList_append, List.mem_append, or_imp, forall_and]

theorem over_join {l : List String} : Over p (String.join l) ↔ ∀ s ∈ l, Over p s := by
  simp only [Over, String.toList_join, List.mem_flatMap, forall_exists_index, and_imp]
  exact ⟨fun h s hs c hc => h c s hs hc, fun h c s hs hc => h s hs c hc⟩

theorem over_empty : Over p "" := fun _ h => absurd h List.not_mem_nil

theorem over_mark {b : Prop} [Decidable b] (h : Over p s) : Over p (if b then s else "") := by
  split
  · exact h
  · exact over_empty

theorem forall_mem_intercalate {α : Type} {P : α → Prop} {sep : List α} {ls : List (List α)}
    (hs : ∀ a ∈ sep, P a) (hl : ∀ l ∈ ls, ∀ a ∈ l, P a) : ∀ a ∈ sep.intercalate ls, P a := by
  induction ls with
  | nil =>
    intro a ha
    cases ha
  | cons l ls ih =>
    cases ls with
    | nil => simpa only [List.intercalate_singleton] using hl l List.mem_cons_self
    | cons m ms =>
      intro a ha
      rw [List.intercalate_cons_cons, List.mem_append, List.mem_append] at ha
      rcases ha with (ha | ha) | ha
      · exact hl l List.mem_cons_self a ha
      · exact hs a ha
      · exact ih (fun k hk => hl k (List.mem_cons_of_mem l hk)) a ha

theorem over_intercalate {l : List String} (hs : Over p s) (hl : ∀ t ∈ l, Over p t) :
    Over p (s.intercalate l) := by
  unfold Over
  rw [String.toList_intercalate]
  apply forall_mem_intercalate hs
  intro cs hcs
  obtain ⟨t, ht, rfl⟩ := List.mem_map.1 hcs
  exact hl t ht

theorem Letter.visible {c : Char} (h : Letter c) : Visible c := by
  rcases h with ⟨h, h'⟩ | ⟨h, h'⟩
  · exact ⟨Char.le_trans (by decide) h, Char.le_trans h' (by decide)⟩
  · exact ⟨Char.le_trans (by decide) h, Char.le_trans h' (by decide)⟩

theorem Inner.visible {c : Char} (h : Inner c) : Visible c := by
  rcases h with letter | mark
  · exact letter.visible
  · simp only [List.mem_cons, List.not_mem_nil, or_false] at mark
    rcases mark with rfl | rfl | rfl | rfl <;> decide

theorem Over.visible (h : Over Letter s) : Over Visible s := h.mono fun _ => Letter.visible

theorem Over.inner (h : Over Letter s) : Over Inner s := h.mono fun _ => .inl

theorem letter_digitChar {d : Nat} (h : d < 16) : Letter d.digitChar := by
  have all : ∀ d < 16, Letter (Nat.digitChar d) := by decide
  exact all d h

theorem letter_of_mem_toDigits {b n : Nat} {c : Char} (hb : 1 < b) (hb' : b ≤ 16)
    (h : c ∈ Nat.toDigits b n) : Letter c := by
  induction n using Nat.strongRecOn with
  | _ n ih =>
    rw [Nat.toDigits_eq_if hb] at h
    split at h
    · next hn =>
      rw [List.mem_singleton.1 h]
      exact letter_digitChar (Nat.lt_of_lt_of_le hn hb')
    · next hn =>
      rcases List.mem_append.1 h with h | h
      · exact ih (n / b) (Nat.div_lt_self (by omega) hb) h
      · rw [List.mem_singleton.1 h]
        exact letter_digitChar (Nat.lt_of_lt_of_le (Nat.mod_lt _ (by omega)) hb')

theorem over_hex (n : Nat) : Over Letter (Hex.text n) := by
  intro c hc
  rw [Hex.text, String.toList_ofList] at hc
  exact letter_of_mem_toDigits (by decide) (by decide) hc

theorem over_padded (width n : Nat) : Over Letter (Hex.padded width n) := by
  intro c hc
  rw [Hex.padded, String.toList_ofList, List.leftpad] at hc
  rcases List.mem_append.1 hc with hc | hc
  · rw [List.eq_of_mem_replicate hc]
    decide
  · exact letter_of_mem_toDigits (by decide) (by decide) hc

theorem over_marked (n : Nat) : Over Letter (Hex.marked n) :=
  over_append.2 ⟨by decide, over_padded 8 n⟩

theorem over_decimal (n : Nat) : Over Letter (toString n) := by
  intro c hc
  rw [Nat.toString_eq_ofList_toDigits, String.toList_ofList] at hc
  exact letter_of_mem_toDigits (by decide) (by decide) hc

theorem over_integer (z : Int) : Over Visible (toString z) := by
  cases z with
  | ofNat n => exact (over_decimal n).visible
  | negSucc n =>
    exact over_append.2 ⟨by decide, (over_decimal (n + 1)).visible⟩

end Text

open Text

def Piece.Over (p : Char → Prop) : Piece → Prop
  | .text s => Text.Over p s
  | .address _ => True

/-- Pieces are over a class if the characters they show are. -/
theorem Piece.over_iff {p : Char → Prop} {l : List Piece} :
    (∀ q ∈ l, q.Over p) ↔ ∀ c, .char c ∈ signs l → p c := by
  induction l with
  | nil => exact iff_of_true (fun q hq => absurd hq List.not_mem_nil) nofun
  | cons q l ih =>
    rw [List.forall_mem_cons, ih]
    cases q with
    | text t =>
      simp only [Over, Text.Over, signs_text_cons, List.mem_append, Sign.char_mem_map, or_imp,
        forall_and]
    | address a => simp [Over, signs_address_cons]

theorem Register.over_name (r : Register) : Over Letter r.name := by
  revert r
  decide +kernel

theorem ShiftKind.over_name (k : ShiftKind) : Over Letter k.name := by
  cases k <;> decide

theorem Shift.over_text (s : Shift) : Over Inner s.text := by
  cases s with
  | none => decide
  | constant k n =>
    simp only [Shift.text, over_append]
    exact ⟨⟨⟨by decide, k.over_name.inner⟩, by decide⟩, (over_decimal n).inner⟩
  | extend => decide
  | register k r =>
    simp only [Shift.text, over_append]
    exact ⟨⟨⟨by decide, k.over_name.inner⟩, by decide⟩, r.over_name.inner⟩

theorem Offset.over_text (o : Offset) : Over Inner o.text := by
  have minus (up : Bool) : Over Inner (minus up) := by cases up <;> decide
  cases o with
  | immediate up n =>
    simp only [text, over_append]
    exact ⟨⟨⟨by decide, minus up⟩, by decide⟩, (over_hex n.toNat).inner⟩
  | register up r s =>
    simp only [text, over_append]
    exact ⟨⟨minus up, r.over_name.inner⟩, s.over_text⟩

theorem Offset.visible_text (o : Offset) : Over Visible o.text :=
  o.over_text.mono fun _ => Inner.visible

theorem Memory.over_fused (m : Memory) : ∀ p ∈ m.fused, p.Over Visible := by
  intro p hp
  cases m with
  | literal a =>
    rw [List.mem_singleton.1 hp]
    trivial
  | preIndexed r o writeback =>
    rw [List.mem_singleton.1 hp]
    have inner : Over Visible (if o.Omitted then r.name else r.name ++ ", " ++ o.text) := by
      split
      · exact r.over_name.visible
      · exact over_append.2 ⟨over_append.2 ⟨r.over_name.visible, by decide⟩, o.visible_text⟩
    simp only [Piece.Over, over_append]
    exact ⟨⟨⟨by decide, inner⟩, by decide⟩, over_mark (by decide)⟩
  | postIndexed r o =>
    rw [List.mem_singleton.1 hp]
    simp only [Piece.Over, over_append]
    exact ⟨⟨⟨by decide, r.over_name.visible⟩, by decide⟩, o.visible_text⟩
  | unindexed r n =>
    rw [List.mem_singleton.1 hp]
    simp only [Piece.Over, over_append]
    exact ⟨⟨⟨⟨by decide, r.over_name.visible⟩, by decide⟩, (over_decimal _).visible⟩, by decide⟩

namespace Operand

theorem over_statusName (saved : Bool) : Over Visible (statusName saved) := by
  cases saved <;> decide

theorem over_fieldLetters (fields : BitVec 4) : Over Visible (fieldLetters fields) := by
  revert fields
  decide +kernel

theorem over_registers (set : BitVec 16) :
    Over Inner (", ".intercalate ((members set).map Register.name)) := by
  refine over_intercalate (by decide) ?_
  intro t ht
  obtain ⟨r, -, rfl⟩ := List.mem_map.1 ht
  exact r.over_name.inner

theorem over_floatConstant (n : BitVec 3) : Over Visible (floatConstants.get n.toFin) := by
  revert n
  decide +kernel

theorem over_fused (o : Operand) : ∀ p ∈ o.fused, p.Over Visible := by
  intro p hp
  cases o with
  | memory m => exact m.over_fused p hp
  | target a =>
    rw [List.mem_singleton.1 hp]
    trivial
  | register r =>
    rw [List.mem_singleton.1 hp]
    exact r.over_name.visible
  | base r writeback =>
    rw [List.mem_singleton.1 hp]
    exact over_append.2 ⟨r.over_name.visible, over_mark (by decide)⟩
  | rotated r bytes =>
    rw [List.mem_singleton.1 hp]
    refine over_append.2 ⟨r.over_name.visible, ?_⟩
    split
    · decide
    · exact over_append.2 ⟨by decide, (over_decimal _).visible⟩
  | shifted r s =>
    rw [List.mem_singleton.1 hp]
    exact over_append.2 ⟨r.over_name.visible, s.over_text.mono fun _ => Inner.visible⟩
  | immediate n =>
    rw [List.mem_singleton.1 hp]
    exact over_append.2 ⟨by decide, (over_hex _).visible⟩
  | registers set user =>
    rw [List.mem_singleton.1 hp]
    simp only [Piece.Over, over_append]
    have names := (over_registers set).mono fun _ => Inner.visible
    exact ⟨⟨⟨by decide, names⟩, by decide⟩, over_mark (by decide)⟩
  | word n =>
    rw [List.mem_singleton.1 hp]
    exact (over_marked _).visible
  | decimal z =>
    rw [List.mem_singleton.1 hp]
    exact over_append.2 ⟨by decide, over_integer z⟩
  | number n =>
    rw [List.mem_singleton.1 hp]
    exact (over_decimal n).visible
  | status saved =>
    rw [List.mem_singleton.1 hp]
    exact over_statusName saved
  | statusFields saved fields =>
    rw [List.mem_singleton.1 hp]
    simp only [Piece.Over, over_append]
    exact ⟨⟨over_statusName saved, by decide⟩, over_fieldLetters fields⟩
  | coprocessor n =>
    rw [List.mem_singleton.1 hp]
    exact over_append.2 ⟨by decide, (over_decimal _).visible⟩
  | coprocessorRegister n =>
    rw [List.mem_singleton.1 hp]
    exact over_append.2 ⟨by decide, (over_decimal _).visible⟩
  | float n =>
    rw [List.mem_singleton.1 hp]
    exact over_append.2 ⟨by decide, (over_decimal _).visible⟩
  | floatConstant n =>
    rw [List.mem_singleton.1 hp]
    exact over_append.2 ⟨by decide, over_floatConstant n⟩

end Operand

theorem Instruction.over_fusedOperands (i : Instruction) :
    ∀ p ∈ i.fusedOperands, p.Over Visible := by
  refine forall_mem_intercalate ?_ ?_
  · intro p hp
    have comma : Text.Over Visible ", " := by decide
    rw [List.mem_singleton.1 hp]
    exact comma
  · intro l hl
    obtain ⟨o, -, rfl⟩ := List.mem_map.1 hl
    exact o.over_fused

theorem Condition.over_suffix (c : Condition) : Over Letter c.suffix := by
  revert c
  decide +kernel

theorem Suffix.over_text (w : Word) (s : Suffix) : Over Letter (s.text w) := by
  have two (v : Vector String 4) (h : ∀ i : Fin 4, Over Letter (v.get i)) (x : BitVec 2) :
      Over Letter (v.get x.toFin) := h x.toFin
  cases s with
  | setFlags => exact over_mark (by decide)
  | comparePc => exact over_mark (by decide)
  | long => exact over_mark (by decide)
  | blockMode => exact two blockModes (by decide) _
  | stackMode => exact (by decide : ∀ i : Fin 8, Over Letter (stackModes.get i)) _
  | precision => exact two precisions (by decide) _
  | transferPrecision => exact two precisions (by decide) _
  | rounding => exact two roundings (by decide) _

namespace Entry

theorem over_condition (e : Entry) (w : Word) : Over Letter (e.condition w) := by
  unfold condition
  split
  · decide
  · exact Condition.over_suffix _

theorem over_name {e : Entry} (h : e ∈ table) : Over Letter e.name := by
  revert e
  decide +kernel

theorem over_mnemonic (v w : Word) : Over Letter ((ofWord v).mnemonic w) := by
  have name : Over Letter (ofWord v).name := by
    rcases ofWord_mem_or_eq v with h | h
    · exact over_name h
    · rw [h]
      decide
  refine over_append.2 ⟨over_append.2 ⟨name, over_condition _ w⟩, over_join.2 ?_⟩
  intro t ht
  obtain ⟨s, -, rfl⟩ := List.mem_map.1 ht
  exact s.over_text w

end Entry

end Disarm
