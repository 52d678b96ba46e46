import Disarm.Proofs.LineShape
import Mathlib.Data.List.Find
/-!
The condition field. Among the entries that have one only the breakpoint looks at it, and no operand
and no suffix does. Main statement: two words that differ in their conditions belong to one entry, and
their lines differ in the condition suffix alone.
-/

namespace Disarm

open Text

namespace Word

/-- The words have the same bits below the condition field. -/
def SameButCondition (v w : Word) : Prop := v.field 0 28 = w.field 0 28

instance (v w : Word) : Decidable (v.SameButCondition w) := inferInstanceAs (Decidable (_ = _))

namespace SameButCondition

variable {v w : Word} (h : v.SameButCondition w)
include h

theorem bit (i : Nat) (below : i < 28) : v.bit i = w.bit i := by
  have low := congrArg (fun x => x.getLsbD i) h
  simpa [below] using low

theorem field (low len : Nat) (below : low + len ≤ 28) : v.field low len = w.field low len := by
  apply BitVec.eq_of_getLsbD_eq
  intro i hi
  simp [hi, h.bit (low + i) (by omega)]

theorem and {m : Word} (free : m.field 28 4 = 0) : v &&& m = w &&& m := by
  apply BitVec.eq_of_getLsbD_eq
  intro i hi
  rw [BitVec.getLsbD_and, BitVec.getLsbD_and]
  by_cases below : i < 28
  · have same : v.getLsbD i = w.getLsbD i := h.bit i below
    rw [same]
  · have top := congrArg (fun x => x.getLsbD (i - 28)) free
    have place : 28 + (i - 28) = i := by omega
    have clear : m.getLsbD i = false := by
      simpa [place, show i - 28 < 4 by omega] using top
    rw [clear, Bool.and_false, Bool.and_false]

/-! ### What is read off a word -/

theorem shift : Shift.ofWord v = Shift.ofWord w := by
  simp (disch := decide) only [Shift.ofWord, h.bit, h.field]

theorem withOffset (o : Offset) : Memory.withOffset v o = Memory.withOffset w o := by
  simp (disch := decide) only [Memory.withOffset, h.bit, h.field]

theorem constant (loc : Addr) (n : Word) : Memory.constant loc v n = Memory.constant loc w n := by
  simp (disch := decide) only [Memory.constant, h.bit, h.field, h.withOffset]

theorem transfer (loc : Addr) : Memory.ofTransfer loc v = Memory.ofTransfer loc w := by
  simp (disch := decide) only [Memory.ofTransfer, h.bit, h.field, h.shift, h.withOffset, h.constant]

theorem halfwordTransfer (loc : Addr) :
    Memory.ofHalfwordTransfer loc v = Memory.ofHalfwordTransfer loc w := by
  simp (disch := decide) only [Memory.ofHalfwordTransfer, h.bit, h.field, h.withOffset, h.constant]

theorem coprocessorTransfer (loc : Addr) :
    Memory.ofCoprocessorTransfer loc v = Memory.ofCoprocessorTransfer loc w := by
  simp (disch := decide) only [Memory.ofCoprocessorTransfer, h.bit, h.field, h.constant]

theorem flexible : Operand.flexible v = Operand.flexible w := by
  simp (disch := decide) only [Operand.flexible, h.bit, h.field, h.shift]

theorem jumpTarget (loc : Addr) : Operand.jumpTarget loc v = Operand.jumpTarget loc w := by
  simp (disch := decide) only [Operand.jumpTarget, h.field]

theorem fieldWidth : Operand.fieldWidth v = Operand.fieldWidth w := by
  simp (disch := decide) only [Operand.fieldWidth, h.bit, h.field]

theorem floatCount : Operand.floatCount v = Operand.floatCount w := by
  simp (disch := decide) only [Operand.floatCount, h.bit]

theorem slotOperands (loc : Addr) {s : Slot} (hs : s ≠ .word) :
    s.operands loc v = s.operands loc w := by
  cases s with
  | word => exact absurd rfl hs
  | flexible => exact congrArg (fun o => [o]) h.flexible
  | address => exact congrArg (fun m => [Operand.memory m]) (h.transfer loc)
  | splitAddress => exact congrArg (fun m => [Operand.memory m]) (h.halfwordTransfer loc)
  | coprocessorAddress => exact congrArg (fun m => [Operand.memory m]) (h.coprocessorTransfer loc)
  | branch => exact congrArg (fun a => [Operand.target a]) (h.jumpTarget loc)
  | width => exact congrArg (fun z => [Operand.decimal z]) h.fieldWidth
  | floatCount => exact congrArg (fun n => [Operand.number n]) h.floatCount
  | exchangeBranch =>
    simp (disch := decide) only [Slot.operands, h.bit, h.jumpTarget]
  | coprocessorTransfer =>
    simp (disch := decide) only [Slot.operands, h.field, h.coprocessorTransfer]
  | _ => simp (disch := decide) only [Slot.operands, h.bit, h.field]

theorem suffixText (s : Suffix) : s.text v = s.text w := by
  cases s <;> simp (disch := decide) only [Suffix.text, h.bit, h.field]

theorem suffixPieces (s : Suffix) : s.pieces v = s.pieces w := by
  cases s <;> simp only [Suffix.pieces, h.suffixText]

end SameButCondition

def BreakpointShaped (w : Word) : Prop := w &&& 0x0ff000f0 = 0x01200070

instance (w : Word) : Decidable w.BreakpointShaped := inferInstanceAs (Decidable (_ = _))

end Word

namespace Entry

/-! ### Which entry it is -/

/-- Entries of the unconditional space apart, only the breakpoint compares the condition. -/
theorem free_of_mem {e : Entry} (he : e ∈ table) (conditional : ¬e.Unconditional) :
    e.mask.field 28 4 = 0 ∨ e.name = "bkpt" := by
  revert e
  decide +kernel

theorem eq_of_breakpoint {e : Entry} (he : e ∈ table) (name : e.name = "bkpt") :
    e = ⟨0xfff000f0, 0xe1200070, "bkpt", [], [.breakpoint]⟩ := by
  revert e
  decide +kernel

theorem breakpointShaped_of_matches {e : Entry} {w : Word} (he : e ∈ table) (name : e.name = "bkpt")
    (h : e.Matches w) : w.BreakpointShaped ∧ w.field 28 4 = 14 := by
  obtain rfl := eq_of_breakpoint he name
  have bits : w &&& 0xfff000f0 = 0xe1200070 := h.1
  constructor
  · have low := congrArg (· &&& (0x0fffffff : Word)) bits
    rw [BitVec.and_assoc] at low
    exact low
  · have top := congrArg (fun x : Word => x.field 28 4) bits
    rw [Word.field, BitVec.extractLsb'_and] at top
    exact (BitVec.and_allOnes (x := w.field 28 4)).symm.trans top

variable {v w : Word}

theorem Matches.change_condition {e : Entry} (h : e.Matches v) (he : e ∈ table)
    (same : v.SameButCondition w) (hv : ¬v.Unconditional) (hw : ¬w.Unconditional)
    (other : ¬v.BreakpointShaped) : e.Matches w := by
  have conditional : ¬e.Unconditional := fun u => hv (h.2.1 u)
  refine ⟨?_, iff_of_false conditional hw⟩
  rcases free_of_mem he conditional with free | name
  · rw [← same.and free]
    exact h.1
  · exact absurd (breakpointShaped_of_matches he name h).1 other

theorem ofWord_eq_of_same (same : v.SameButCondition w) (hv : ¬v.Unconditional)
    (hw : ¬w.Unconditional) (other : ¬v.BreakpointShaped) : ofWord v = ofWord w := by
  have back : w.SameButCondition v := Eq.symm same
  have other' : ¬w.BreakpointShaped := by
    unfold Word.BreakpointShaped
    rw [back.and rfl]
    exact other
  unfold ofWord
  congr 1
  apply List.find?_congr
  intro e he
  apply decide_eq_decide.2
  constructor
  · intro h
    exact h.change_condition he same hv hw other
  · intro h
    exact h.change_condition he back hw hv other'

theorem condition_eq (hv : ¬v.Unconditional) (defined : ¬(ofWord v).Undefined) :
    (ofWord v).condition v = Condition.suffix (v.field 28 4) := by
  apply if_neg
  rintro (u | u)
  · exact hv ((matches_ofWord defined).2.1 u)
  · exact defined u

theorem word_notMem_slots {e : Entry} (he : e ∈ table) (defined : ¬e.Undefined) :
    Slot.word ∉ e.slots := by
  revert e
  decide +kernel

theorem listed_eq_of_same (same : v.SameButCondition w) (loc : Addr) (separator : String)
    {l : List Slot} (hl : .word ∉ l) :
    Slot.listed loc v separator l = Slot.listed loc w separator l := by
  induction l generalizing separator with
  | nil => rfl
  | cons s l ih =>
    obtain ⟨first, rest⟩ := not_or.1 (List.mem_cons.not.1 hl)
    rw [Slot.listed, Slot.listed, ih ", " rest, same.slotOperands loc (Ne.symm first)]

/-! ### What follows the name -/

theorem condition_ne_nv (w : Word) : (ofWord w).condition w ≠ "nv" := by
  unfold condition
  split
  · decide
  · next h =>
    obtain ⟨conditional, defined⟩ := not_or.1 h
    intro e
    have never : w.field 28 4 = 15 := Condition.suffix_inj e
    exact conditional ((matches_ofWord defined).2.2 never)

end Entry

theorem Suffix.without_n (w : Word) (s : Suffix) : Over (· ≠ 'n') (s.text w) := by
  cases s with
  | setFlags => exact over_mark (by decide)
  | comparePc => exact over_mark (by decide)
  | long => exact over_mark (by decide)
  | blockMode => exact (by decide : ∀ i : Fin 4, Over (· ≠ 'n') (blockModes.get i)) _
  | stackMode => exact (by decide : ∀ i : Fin 8, Over (· ≠ 'n') (stackModes.get i)) _
  | precision => exact (by decide : ∀ i : Fin 4, Over (· ≠ 'n') (precisions.get i)) _
  | transferPrecision => exact (by decide : ∀ i : Fin 4, Over (· ≠ 'n') (precisions.get i)) _
  | rounding => exact (by decide : ∀ i : Fin 4, Over (· ≠ 'n') (roundings.get i)) _

namespace Entry

/-- What stands between the name of an entry and the first operand. -/
def afterName (e : Entry) (w : Word) : String := e.condition w ++ e.glue w ++ "\t"

theorem not_nv_afterName (w : Word) : ¬"nv".toList <+: ((ofWord w).afterName w).toList := by
  intro starts
  rw [afterName, String.append_assoc, String.toList_append] at starts
  rcases (ofWord w).length_condition w with none | two
  -- Without a condition the text starts with a letter of a suffix or with the tab.
  · rw [List.eq_nil_of_length_eq_zero none, List.nil_append] at starts
    have glued : Over (· ≠ 'n') ((ofWord w).glue w ++ "\t") := by
      refine over_append.2 ⟨over_join.2 ?_, by decide⟩
      intro t ht
      obtain ⟨s, -, rfl⟩ := List.mem_map.1 ht
      exact s.without_n w
    exact glued 'n' (starts.subset (by decide)) rfl
  · have whole := List.prefix_of_prefix_length_le starts (List.prefix_append _ _) (by simp [two])
    have same := whole.eq_of_length (by simp [two])
    exact condition_ne_nv w (String.toList_inj.1 same).symm

theorem field_of_breakpoint {w : Word} (name : (ofWord w).name = "bkpt") : w.field 28 4 = 14 := by
  have defined : ¬(ofWord w).Undefined := by
    intro undefined
    exact absurd (name.symm.trans undefined) (by decide)
  exact (breakpointShaped_of_matches (ofWord_mem defined) name (matches_ofWord defined)).2

end Entry

namespace Recorder

def callsAfterCondition (loc : Addr) (w : Word) : List Call :=
  ((Entry.ofWord w).suffixes.flatMap (Suffix.pieces w) ++
    Slot.listed loc w "\t" (Entry.ofWord w).slots ++ [Piece.text "\n"]).map Piece.call

/-- The calls behind the name. -/
def callsAfterName (loc : Addr) (w : Word) : List Call :=
  ((Instruction.decode loc w).pieces false).tail.map Piece.call

theorem printed_eq_name (loc : Addr) (w : Word) :
    printed loc w false = .text (Entry.ofWord w).name :: callsAfterName loc w := by
  rw [printed_eq]
  rfl

theorem signs_callsAfterName (loc : Addr) (w : Word) :
    Call.signs (callsAfterName loc w) = ((Entry.ofWord w).afterName w).toList.map .char ++
      ((Instruction.decode loc w).operandSigns ++ [.char '\n']) := by
  have line := Instruction.signs_trace loc w
  have mnemonic : (Instruction.decode loc w).mnemonic.toList = _ :=
    (Entry.ofWord w).toList_mnemonic w
  rw [trace_eq_printed, printed_eq_name, Call.signs, Call.signs, mnemonic] at line
  have rest := (List.cons.inj line).2
  rw [List.map_append, List.append_assoc, List.append_cancel_left_eq] at rest
  rw [rest, Entry.afterName]
  simp

theorem not_nv_callsAfterName (loc : Addr) (w : Word) :
    ¬"nv".toList.map Sign.char <+: Call.signs (callsAfterName loc w) := by
  rw [signs_callsAfterName]
  intro starts
  rcases List.prefix_or_prefix_of_prefix starts (List.prefix_append _ _) with short | long
  · refine Entry.not_nv_afterName w ((List.prefix_map_iff_of_injective ?_).1 short)
    exact fun _ _ => Sign.char.inj
  -- The text behind the name ends with a tab, so it is no start of the suffix.
  · have tab : Sign.char '\t' ∈ ((Entry.ofWord w).afterName w).toList.map Sign.char := by
      simp [Entry.afterName]
    exact absurd (long.subset tab) (by decide)

theorem printed_eq_condition {w : Word} (hw : ¬w.Unconditional)
    (defined : ¬(Entry.ofWord w).Undefined) (loc : Addr) :
    printed loc w false = .text (Entry.ofWord w).name ::
      .text (Condition.suffix (w.field 28 4)) :: callsAfterCondition loc w := by
  have conditional : ¬(Entry.ofWord w).Unconditional :=
    fun u => hw ((Entry.matches_ofWord defined).2.1 u)
  have opening : (Entry.ofWord w).opening w = .text (Entry.ofWord w).name ::
      .text (Condition.suffix (w.field 28 4)) ::
        (Entry.ofWord w).suffixes.flatMap (Suffix.pieces w) := by
    rw [Entry.opening, if_neg (not_or.2 ⟨conditional, defined⟩), Entry.condition_eq hw defined]
    rfl
  rw [printed_eq]
  change ((Entry.ofWord w).opening w ++ Slot.listed loc w "\t" (Entry.ofWord w).slots ++
    [Piece.text "\n"]).map Piece.call = _
  rw [opening]
  rfl

theorem callsAfterCondition_eq_of_same {v w : Word} (same : v.SameButCondition w)
    (hv : ¬v.Unconditional) (hw : ¬w.Unconditional) (other : ¬v.BreakpointShaped)
    (defined : ¬(Entry.ofWord v).Undefined) (loc : Addr) :
    callsAfterCondition loc v = callsAfterCondition loc w := by
  have suffixes : Suffix.pieces v = Suffix.pieces w := funext same.suffixPieces
  unfold callsAfterCondition
  rw [← Entry.ofWord_eq_of_same same hv hw other, suffixes,
    Entry.listed_eq_of_same same loc "\t"
      (Entry.word_notMem_slots (Entry.ofWord_mem defined) defined)]

/-- The condition decides nothing but its suffix. Words that differ in it belong to one entry, the
breakpoint apart, and if that is defined they make the same calls but for the suffix right behind the
name. The suffix of the condition that never holds is never printed. -/
theorem trace_of_sameButCondition :
    (∀ v w : Word, v.SameButCondition w → ¬v.Unconditional → ¬w.Unconditional →
      ¬v.BreakpointShaped →
        Entry.ofWord v = Entry.ofWord w ∧
        (¬(Entry.ofWord v).Undefined → ∀ loc, ∃ rest,
          trace loc v false = .read loc :: .text (Entry.ofWord v).name ::
            .text (Condition.suffix (v.field 28 4)) :: rest ∧
          trace loc w false = .read loc :: .text (Entry.ofWord v).name ::
            .text (Condition.suffix (w.field 28 4)) :: rest)) ∧
    Condition.suffix 14 = "" ∧
    (∀ u, (Entry.ofWord u).name = "bkpt" → u.field 28 4 = 14) ∧
    ∀ u loc, ∃ rest,
      trace loc u false = .read loc :: .text (Entry.ofWord u).name :: rest ∧
      trace loc u true = .read loc :: .text (String.ofList (Hex.places 8 u.toNat) ++ "\t") ::
        .text (Entry.ofWord u).name :: rest ∧
      ¬"nv".toList.map Sign.char <+: Call.signs rest := by
  refine ⟨?_, rfl, fun u => Entry.field_of_breakpoint, ?_⟩
  · intro v w same hv hw other
    have entry := Entry.ofWord_eq_of_same same hv hw other
    refine ⟨entry, fun defined loc => ⟨callsAfterCondition loc v, ?_, ?_⟩⟩
    · rw [trace_eq_printed, printed_eq_condition hv defined]
    · rw [trace_eq_printed, printed_eq_condition hw (entry ▸ defined), ← entry,
        callsAfterCondition_eq_of_same same hv hw other defined]
  · intro u loc
    refine ⟨callsAfterName loc u, ?_, ?_, not_nv_callsAfterName loc u⟩
    · rw [trace_eq_printed, printed_eq_name]
    · rw [trace_eq_printed, printed_raw, printed_eq_name]

/-- An addition whose flags are set, always and if a comparison was unequal. -/
theorem trace_of_sameButCondition_add :
    (0xe0910002 : Word).SameButCondition 0x10910002 ∧ ¬(0xe0910002 : Word).Unconditional ∧
    ¬(0x10910002 : Word).Unconditional ∧ ¬(0xe0910002 : Word).BreakpointShaped ∧
    ¬(Entry.ofWord 0xe0910002).Undefined ∧
    ∃ rest,
      trace 0x8000 0xe0910002 false = .read 0x8000 :: .text "add" :: .text "" :: rest ∧
      trace 0x8000 0x10910002 false = .read 0x8000 :: .text "add" :: .text "ne" :: rest := by
  have same : (0xe0910002 : Word).SameButCondition 0x10910002 := by decide
  have hv : ¬(0xe0910002 : Word).Unconditional := by decide
  have hw : ¬(0x10910002 : Word).Unconditional := by decide
  have other : ¬(0xe0910002 : Word).BreakpointShaped := by decide
  have defined : ¬(Entry.ofWord 0xe0910002).Undefined := by decide +kernel
  have name : (Entry.ofWord 0xe0910002).name = "add" := by decide +kernel
  obtain ⟨rest, always, unequal⟩ :=
    (trace_of_sameButCondition.1 _ _ same hv hw other).2 defined 0x8000
  rw [name] at always unequal
  exact ⟨same, hv, hw, other, defined, rest, always, unequal⟩

end Recorder

end Disarm
