import Disarm.Proofs.Consecutive
import Disarm.Proofs.Decoder
import Disarm.Proofs.FrontEnds
import Disarm.Proofs.OperandText
/-!
Offsets that are registers. Bit 4 of a transfer with such an offset asks for a shift by a register;
with a condition these words are taken by entries that stand before the transfers, but the mask of a
preload leaves bits 25 and 4 free. Main statement: the offset of a transfer is shifted by a register
exactly for such a preload, and else by a constant or not at all.
-/

namespace Disarm

/-! ### The first match -/

theorem Cube.contains_bit (w : Word) (i : Nat) :
    (Cube.ofField i (BitVec.ofBool (w.bit i))).Contains w := by
  have field : BitVec.ofBool (w.bit i) = w.field i 1 := by
    ext k hk
    obtain rfl : k = 0 := by omega
    simp
  rw [field]
  exact contains_ofField i 1 w

namespace Entry

variable {w : Word}

/-- Once an entry matches, what stands behind it is not reached. -/
theorem ofWord_mem_of_matches {front : List Entry} {e : Entry} (opens : front <+: table)
    (he : e ∈ front) (hw : e.Matches w) : ofWord w ∈ front ∧ (ofWord w).Matches w := by
  obtain ⟨back, split⟩ := opens
  have some_match : (front.find? fun e => e.Matches w).isSome :=
    List.find?_isSome.2 ⟨e, he, decide_eq_true hw⟩
  obtain ⟨d, found⟩ := Option.isSome_iff_exists.1 some_match
  have first : ofWord w = d := by
    rw [ofWord, ← split, List.find?_append, found]
    rfl
  rw [first]
  exact ⟨List.mem_of_find?_eq_some found,
    of_decide_eq_true (List.find?_some (p := fun e : Entry => decide (e.Matches w)) found)⟩

def HasAddress (e : Entry) : Prop := 'a' ∈ e.format.toList

instance (e : Entry) : Decidable e.HasAddress := inferInstanceAs (Decidable (_ ∈ _))

def preload : Entry := ⟨0xfd70f000, 0xf550f000, "pld", [], [.address]⟩

theorem matches_of_hasAddress (h : (ofWord w).HasAddress) :
    (ofWord w).Matches w ∧ (ofWord w ∈ Table.transfers ∨ ofWord w = preload) := by
  have all : ∀ e ∈ table, e.HasAddress → ¬e.Undefined ∧ (e ∈ Table.transfers ∨ e = preload) := by
    decide +kernel
  rcases ofWord_mem_or_eq w with mem | none
  · obtain ⟨defined, place⟩ := all _ mem h
    exact ⟨matches_ofWord defined, place⟩
  · rw [none] at h
    exact absurd h (by decide)

end Entry

/-! ### Words with bits 25 and 4 -/

/-- Bits 27 to 25 are those of a transfer with a register as its offset, and bit 4 is set. -/
def Word.ShiftsOffset (w : Word) : Prop := w &&& 0x0e000010 = 0x06000010

/-- A preload with a register as its offset and bit 4 set. -/
def Word.StrayPreload (w : Word) : Prop := w &&& 0xff70f010 = 0xf750f010

instance (w : Word) : Decidable w.StrayPreload := inferInstanceAs (Decidable (_ = _))

def Table.upToMedia : List Entry :=
  unconditional ++ miscellaneous ++ branches ++ multiplies ++ halfwords ++ dataProcessing ++ media

namespace Entry

variable {w : Word}

/-- With a condition these words are extensions and bit fields, or undefined. -/
theorem ofWord_mem_media (shifts : w.ShiftsOffset) (conditional : ¬w.Unconditional) :
    ofWord w ∈ Table.media := by
  have opens : Table.upToMedia <+: table := by decide +kernel
  have front : ∀ e ∈ Table.upToMedia,
      e.Unconditional ∨ e ∈ Table.media ∨ ¬e.cube.Compatible ⟨0x0e000010, 0x06000010⟩ := by
    decide +kernel
  -- The last entry of the media group takes whatever comes so far, so nothing behind it is reached.
  have taken : (⟨0x0e000010, 0x06000010, "und", [], [.word]⟩ : Entry).Matches w :=
    ⟨shifts, iff_of_false (by decide) conditional⟩
  obtain ⟨mem, pattern, side⟩ := ofWord_mem_of_matches opens (by decide +kernel) taken
  rcases front _ mem with unconditional | media | apart
  · exact absurd (side.1 unconditional) conditional
  · exact media
  · have known : (⟨0x0e000010, 0x06000010⟩ : Cube).Contains w := shifts
    exact absurd (Cube.Contains.compatible (c := (ofWord w).cube) pattern known) apart

theorem ofWord_of_strayPreload (stray : w.StrayPreload) : ofWord w = preload := by
  have known : (⟨0xff70f010, 0xf750f010⟩ : Cube).Contains w := stray
  have unconditional : w.Unconditional := by
    have other : ∀ x : BitVec 4,
        (Cube.ofField 28 x).Compatible ⟨0xff70f010, 0xf750f010⟩ → x = 15 := by decide
    exact other _ ((Cube.contains_ofField 28 4 w).compatible known)
  -- The preload's mask knows neither bit 25 nor bit 4.
  have within : (⟨0xff70f010, 0xf750f010⟩ : Cube).Within preload.cube := by decide
  have taken : preload.Matches w :=
    ⟨within.contains known, iff_of_true (by decide) unconditional⟩
  have front : ∀ e ∈ Table.unconditional,
      e.cube.Compatible ⟨0xff70f010, 0xf750f010⟩ → e = preload := by decide
  have opens : Table.unconditional <+: table := by decide +kernel
  obtain ⟨mem, pattern, -⟩ := ofWord_mem_of_matches opens (by decide) taken
  exact front _ mem (Cube.Contains.compatible (c := (ofWord w).cube) pattern known)

/-- Of the words that would shift an offset by a register only stray preloads are transfers. -/
theorem hasAddress_iff_strayPreload (shifts : w.ShiftsOffset) :
    (ofWord w).HasAddress ↔ w.StrayPreload := by
  constructor
  · intro h
    obtain ⟨⟨pattern, side⟩, transfer | preload⟩ := matches_of_hasAddress h
    · have conditional : ∀ e ∈ Table.transfers, ¬e.Unconditional := by decide
      have none : ∀ e ∈ Table.media, ¬e.HasAddress := by decide +kernel
      have media := ofWord_mem_media shifts fun h => conditional _ transfer (side.2 h)
      exact absurd h (none _ media)
    · rw [preload] at pattern
      exact Cube.Contains.inter (c := Entry.preload.cube) (d := ⟨_, _⟩) pattern shifts
  · intro stray
    rw [ofWord_of_strayPreload stray]
    decide

theorem bit_four_iff (h : (ofWord w).HasAddress) (register : w.bit 25 = true) :
    w.bit 4 = true ↔ w.StrayPreload := by
  obtain ⟨⟨pattern, -⟩, place⟩ := matches_of_hasAddress h
  constructor
  · intro bit
    have within : ∀ e ∈ Table.transfers ++ [preload], (e.cube.inter
        ((Cube.ofField 25 (1 : BitVec 1)).inter (.ofField 4 (1 : BitVec 1)))).Within
          ⟨0x0e000010, 0x06000010⟩ := by decide
    have bits := (Cube.contains_bit w 25).inter (Cube.contains_bit w 4)
    rw [register, bit] at bits
    have mem : ofWord w ∈ Table.transfers ++ [preload] :=
      List.mem_append.2 (place.imp id List.mem_singleton.2)
    have known := Cube.Contains.inter (c := (ofWord w).cube) pattern bits
    exact (hasAddress_iff_strayPreload ((within _ mem).contains known)).1 h
  · intro stray
    have known : (⟨0xff70f010, 0xf750f010⟩ : Cube).Contains w := stray
    have apart : ¬(Cube.ofField 4 (BitVec.ofBool false)).Compatible ⟨0xff70f010, 0xf750f010⟩ := by
      decide
    refine eq_true_of_ne_false fun clear => apart ?_
    rw [← clear]
    exact (Cube.contains_bit w 4).compatible known

end Entry

/-! ### Text of the offset -/

/-- What follows a register that is not shifted, shifted by a constant or rotated through carry. -/
inductive Shift.FixedText : String → Prop where
  | none : FixedText ""
  | places (kind : ShiftKind) (n : Nat) (positive : 1 ≤ n) (bound : n ≤ 32) :
    FixedText (", " ++ kind.name ++ " #" ++ toString n)
  | rrx : FixedText ", rrx"

def Shift.registerText (kind : ShiftKind) (r : Register) : String :=
  ", " ++ kind.name ++ " " ++ r.name

namespace Shift

theorem fixedText_of_bit_four_clear {w : Word} (clear : w.bit 4 = false) :
    FixedText (ofWord w).text := by
  have bound : (w.field 7 5).toNat < 32 := (w.field 7 5).isLt
  rw [ofWord, if_neg (Bool.eq_false_iff.1 clear)]
  split
  · cases ShiftKind.ofField (w.field 5 2) with
    | lsl => exact .none
    | ror => exact .rrx
    | lsr => exact .places .lsr 32 (by decide) (Nat.le_refl 32)
    | asr => exact .places .asr 32 (by decide) (Nat.le_refl 32)
  · next positive => exact .places _ _ (Nat.one_le_iff_ne_zero.2 positive) (Nat.le_of_lt bound)

theorem text_of_bit_four {w : Word} (bit : w.bit 4 = true) :
    (ofWord w).text = registerText (ShiftKind.ofField (w.field 5 2)) (w.field 8 4) := by
  rw [ofWord, if_pos bit]
  rfl

theorem FixedText.ne_registerText {t : String} (h : FixedText t) (kind : ShiftKind) (r : Register) :
    t ≠ registerText kind r := by
  have register (s : Shift) (e : s.text = registerText kind r) : s = .register kind r :=
    text_inj (t := .register kind r) e
  cases h with
  | none => exact fun e => nomatch register .none e
  | places k n => exact fun e => nomatch register (.constant k n) e
  | rrx => exact fun e => nomatch register .extend e

end Shift

def Memory.registerText (w : Word) (after : String) : String :=
  let offset := Offset.minus (up w) ++ Register.name (w.field 0 4) ++ after
  if pre w then
    "[" ++ Register.name (baseOf w) ++ ", " ++ offset ++ "]" ++ if writeback w then "!" else ""
  else "[" ++ Register.name (baseOf w) ++ "], " ++ offset

theorem Memory.fused_ofTransfer {w : Word} (register : w.bit 25 = true) (loc : Addr) :
    (ofTransfer loc w).fused = [.text (registerText w (Shift.ofWord w).text)] := by
  have kept : ¬(Offset.register (up w) (w.field 0 4) (Shift.ofWord w)).Omitted := id
  rw [ofTransfer, if_pos register, withOffset, registerText]
  split
  · rw [fused, if_neg kept, Offset.text]
    simp only [String.append_assoc]
  · rfl

theorem Memory.registerText_inj {w : Word} {s t : String}
    (h : registerText w s = registerText w t) : s = t := by
  unfold registerText at h
  split at h
  · simpa only [String.append_left_inj, String.append_right_inj] using h
  · simpa only [String.append_right_inj] using h

/-! ### Lines -/

def Word.lead (raw : Bool) (w : Word) : String :=
  (if raw then Hex.padded 8 w.toNat ++ "\t" else "") ++ (Entry.ofWord w).mnemonic w ++ "\t" ++
    if Slot.rd ∈ (Entry.ofWord w).slots then Register.name (w.field 12 4) ++ ", " else ""

section Lines

variable {w : Word} (h : (Entry.ofWord w).HasAddress) (register : w.bit 25 = true)
include h register

theorem Instruction.render_fusedOperands (spell : Addr → String) (loc : Addr) :
    Piece.render spell (decode loc w).fusedOperands =
      (if Slot.rd ∈ (Entry.ofWord w).slots then Register.name (w.field 12 4) ++ ", " else "") ++
        Memory.registerText w (Shift.ofWord w).text := by
  have transfers : ∀ e ∈ Table.transfers, e.slots = [.rd, .address] := by decide
  have memory := Memory.fused_ofTransfer register loc
  rcases (Entry.matches_of_hasAddress h).2 with transfer | preload
  · have slots := transfers _ transfer
    have operands : (decode loc w).operands =
        [.register (w.field 12 4), .memory (.ofTransfer loc w)] :=
      congrArg (List.flatMap (Slot.operands loc w)) slots
    rw [fusedOperands, operands, slots]
    simp [Operand.fused, Operand.pieces, memory, Piece.render, List.intercalate, String.append_assoc]
  · have operands : (decode loc w).operands = [.memory (.ofTransfer loc w)] :=
      congrArg (fun e => e.slots.flatMap (Slot.operands loc w)) preload
    rw [fusedOperands, operands, preload]
    simp [Operand.fused, memory, Piece.render, List.intercalate, Entry.preload]

theorem Transcript.line_eq_of_register (spell : Addr → String) (raw : Bool) (loc : Addr) :
    line spell raw loc w =
      w.lead raw ++ Memory.registerText w (Shift.ofWord w).text ++ "\n" := by
  rw [line_eq, Instruction.pieces_eq_body, Piece.render_append, Instruction.render_body,
    Instruction.render_fusedOperands h register, Word.lead]
  simp [Piece.render, Instruction.mnemonic, Instruction.decode, String.append_assoc]

end Lines

/-- The words that ask for an offset shifted by a register are taken for transfers only if they are
stray preloads. The line of a transfer with a register as its offset names that register with a shift
by another one exactly then, and otherwise with a shift by a constant or with none. -/
theorem Transcript.shifts_by_register_iff (w : Word) :
    (w.ShiftsOffset → ((Entry.ofWord w).HasAddress ↔ w.StrayPreload)) ∧
    ((Entry.ofWord w).HasAddress → w.bit 25 = true → ∀ spell raw loc,
      ((∃ kind r, line spell raw loc w =
          w.lead raw ++ Memory.registerText w (Shift.registerText kind r) ++ "\n") ↔
        w.StrayPreload) ∧
      (¬w.StrayPreload → ∃ after, Shift.FixedText after ∧
        line spell raw loc w = w.lead raw ++ Memory.registerText w after ++ "\n")) := by
  refine ⟨Entry.hasAddress_iff_strayPreload, fun h register spell raw loc => ?_⟩
  have line := line_eq_of_register h register spell raw loc
  rw [line, ← Entry.bit_four_iff h register]
  constructor
  · constructor
    · rintro ⟨kind, r, same⟩
      rw [String.append_left_inj, String.append_right_inj] at same
      have text := Memory.registerText_inj same
      refine eq_true_of_ne_false fun clear => ?_
      exact (Shift.fixedText_of_bit_four_clear clear).ne_registerText kind r text
    · intro bit
      rw [Shift.text_of_bit_four bit]
      exact ⟨_, _, rfl⟩
  · intro clear
    exact ⟨_, Shift.fixedText_of_bit_four_clear (Bool.eq_false_iff.2 clear), rfl⟩

/-- A load with its offset shifted by two places, an undefined word in its place with bit 4, and a
preload with bit 4. -/
theorem Transcript.shifts_by_register_iff_preload :
    ((Entry.ofWord 0xe7910102).HasAddress ∧
      ∃ after, Shift.FixedText after ∧ line (fun a => Hex.marked a.toNat) false 0 0xe7910102 =
        Word.lead false 0xe7910102 ++ Memory.registerText 0xe7910102 after ++ "\n") ∧
    (Word.ShiftsOffset 0xe7910112 ∧ ¬(Entry.ofWord 0xe7910112).HasAddress) ∧
    ((Entry.ofWord 0xf7d1f112).HasAddress ∧
      ∃ kind r, line (fun a => Hex.marked a.toNat) false 0 0xf7d1f112 =
        Word.lead false 0xf7d1f112 ++
          Memory.registerText 0xf7d1f112 (Shift.registerText kind r) ++ "\n") := by
  have load : (Entry.ofWord 0xe7910102).HasAddress := by decide +kernel
  have preload : (Entry.ofWord 0xf7d1f112).HasAddress := by decide +kernel
  have shifts : Word.ShiftsOffset 0xe7910112 := rfl
  refine ⟨⟨load, ?_⟩, ⟨shifts, ?_⟩, preload, ?_⟩
  · exact ((shifts_by_register_iff _).2 load rfl _ false 0).2 (by decide)
  · exact ((shifts_by_register_iff _).1 shifts).not.2 (by decide)
  · exact ((shifts_by_register_iff _).2 preload rfl _ false 0).1.2 rfl

/-- The offset of a preload is shifted by a register, as that of no load or store is. -/
theorem Transcript.not_shifts_by_constants :
    line (fun a => Hex.marked a.toNat) false 0 0xf7d1f112 = "pld\t[r1, r2, lsl r1]\n" ∧
    ¬∀ w : Word, (Entry.ofWord w).HasAddress → w.bit 25 = true → ∀ spell raw loc,
      ∃ after, Shift.FixedText after ∧
        line spell raw loc w = w.lead raw ++ Memory.registerText w after ++ "\n" := by
  refine ⟨by decide +kernel, fun all => ?_⟩
  have preload : (Entry.ofWord 0xf7d1f112).HasAddress := by decide +kernel
  obtain ⟨after, fixed, printed⟩ := all _ preload rfl (fun a => Hex.marked a.toNat) false 0
  rw [line_eq_of_register preload rfl, String.append_left_inj, String.append_right_inj] at printed
  have text := Memory.registerText_inj printed
  exact fixed.ne_registerText .lsl 1 text.symm

end Disarm
