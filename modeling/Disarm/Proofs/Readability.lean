import Disarm.Proofs.Mnemonic
import Disarm.Proofs.Recording
import Mathlib.Data.List.Basic
/-!
Unique readability. The first tab of a line ends its mnemonic, so equal lines have equal mnemonics and
equal operands. Main statement: the lines of two words at one address, undefined ones apart, are equal
only if the words belong to one entry and have one condition.
-/

namespace Disarm

open Text

namespace Entry

theorem ofWord_mem {w : Word} (h : ¬(ofWord w).Undefined) : ofWord w ∈ table := by
  rcases ofWord_mem_or_eq w with hm | hf
  · exact hm
  · rw [hf] at h
    exact absurd rfl h

theorem matches_ofWord {w : Word} (h : ¬(ofWord w).Undefined) : (ofWord w).Matches w := by
  unfold ofWord at h ⊢
  cases hf : table.find? fun e => e.Matches w with
  | none =>
    rw [hf] at h
    exact absurd rfl h
  | some e =>
    have he := List.find?_some (p := fun e : Entry => decide (e.Matches w)) hf
    exact of_decide_eq_true he

theorem Matches.bit {e : Entry} {w : Word} (h : e.Matches w) {i : Nat} (hi : e.pattern.bit i = true) :
    w.bit i = true := by
  rw [← h.1, Word.bit, BitVec.getLsbD_and] at hi
  exact (Bool.and_eq_true_iff.1 hi).1

end Entry

namespace Instruction

theorem signs_trace (loc : Addr) (w : Word) :
    Call.signs (Recorder.trace loc w false) =
      .read loc :: ((decode loc w).mnemonic.toList.map .char ++
        .char '\t' :: ((decode loc w).operandSigns ++ [.char '\n'])) := by
  have line := signs_pieces loc w false
  rw [signs_body, List.append_assoc, List.append_assoc] at line
  rw [Recorder.trace_eq]
  exact congrArg (Sign.read loc :: ·) line

theorem tab_notMem_mnemonic (loc : Addr) (w : Word) :
    Sign.char '\t' ∉ (decode loc w).mnemonic.toList.map Sign.char := by
  intro h
  have letter : Letter '\t' := Entry.over_mnemonic w w '\t' (Sign.char_mem_map.1 h)
  exact absurd letter (by decide)

theorem tab_notMem_operands (loc : Addr) (w : Word) :
    Sign.char '\t' ∉ (decode loc w).operandSigns ++ [.char '\n'] := by
  intro h
  rcases List.mem_append.1 h with h | h
  · have visible := Piece.over_iff.1 (decode loc w).over_fusedOperands _ h
    exact absurd visible (by decide)
  · exact absurd h (by decide)

/-- The first tab ends the mnemonic. -/
theorem mnemonic_and_operands_of_join_eq {loc : Addr} {v w : Word}
    (h : Call.join (Recorder.trace loc v false) = Call.join (Recorder.trace loc w false)) :
    (decode loc v).mnemonic = (decode loc w).mnemonic ∧
      (decode loc v).operandSigns = (decode loc w).operandSigns := by
  have hs := congrArg Call.signs h
  rw [Call.signs_join, Call.signs_join, signs_trace, signs_trace] at hs
  obtain ⟨hm, -, ho⟩ := (List.append_cons_inj_of_notMem (tab_notMem_mnemonic loc v)
    (tab_notMem_operands loc v)).1 (List.cons.inj hs).2
  exact ⟨String.toList_inj.1 (Sign.map_char_inj hm), List.append_cancel_right ho⟩

end Instruction

namespace Entry

theorem operandSigns_eq {w : Word} {l : List Slot} (h : (ofWord w).slots = l) (loc : Addr) :
    (Instruction.decode loc w).operandSigns =
      Piece.signs ([Piece.text ", "].intercalate
        ((l.flatMap (Slot.operands loc w)).map Operand.fused)) := by
  rw [← h]
  rfl

theorem operandSigns_ne_of_branch {loc : Addr} {v w : Word}
    (hv : (ofWord v).slots = [.exchangeBranch]) (hw : (ofWord w).slots = [.rm]) :
    (Instruction.decode loc v).operandSigns ≠ (Instruction.decode loc w).operandSigns := by
  rw [operandSigns_eq hv, operandSigns_eq hw]
  intro h
  have head := congrArg List.head? h
  cases hn : (Register.name (w.field 0 4)).toList <;>
    simp [Slot.operands, Operand.fused, Operand.pieces, Piece.signs_text_cons,
      Piece.signs_address_cons, Piece.signs_nil, hn] at head

theorem over_status (saved : Bool) (fields : BitVec 4) :
    Over (fun c => Letter c ∨ c = '_')
      (Operand.statusName saved ++ "_" ++ Operand.fieldLetters fields) := by
  revert saved fields
  decide +kernel

theorem operandSigns_ne_of_status {loc : Addr} {v w : Word}
    (hv : (ofWord v).slots = [.statusFields, .rm])
    (hw : (ofWord w).slots = [.statusFields, .flexible]) (h : w.bit 25 = true) :
    (Instruction.decode loc v).operandSigns ≠ (Instruction.decode loc w).operandSigns := by
  rw [operandSigns_eq hv, operandSigns_eq hw]
  intro e
  have mark : Sign.char '#' ∈ Piece.signs ([Piece.text ", "].intercalate
      (([.statusFields, .flexible].flatMap (Slot.operands loc w)).map Operand.fused)) := by
    simp [Slot.operands, Operand.flexible, h, Operand.fused, Operand.pieces, Piece.signs_text_cons]
  have unmarked : ∀ p ∈ [Piece.text ", "].intercalate
      (([.statusFields, .rm].flatMap (Slot.operands loc v)).map Operand.fused),
      p.Over (· ≠ '#') := by
    have register (r : Register) : Over (· ≠ '#') r.name :=
      r.over_name.mono fun c hc e => absurd (e ▸ hc) (by decide)
    have status (saved : Bool) (fields : BitVec 4) : Over (· ≠ '#')
        (Operand.statusName saved ++ "_" ++ Operand.fieldLetters fields) :=
      (over_status saved fields).mono fun c hc e => absurd (e ▸ hc) (by decide)
    have comma : Over (· ≠ '#') ", " := by decide
    simp only [Slot.operands, List.flatMap_cons, List.flatMap_nil, List.cons_append,
      List.nil_append, List.map_cons, List.map_nil, Operand.fused, Operand.pieces,
      List.intercalate_cons_cons, List.intercalate_singleton, List.forall_mem_cons]
    exact ⟨status _ _, comma, register _, fun _ h => absurd h List.not_mem_nil⟩
  exact Piece.over_iff.1 unmarked _ (e ▸ mark) rfl

/-- Twins are told apart by the rest of the line. -/
theorem not_twin {loc : Addr} {v w : Word} (hw : (ofWord w).Matches w)
    (hg : (ofWord v).glue v = (ofWord w).glue w)
    (ho : (Instruction.decode loc v).operandSigns = (Instruction.decode loc w).operandSigns) :
    ¬(ofWord v).Twin (ofWord w) := by
  rintro (⟨hv, hw'⟩ | ⟨hv, hw'⟩ | ⟨hv, hw', bit⟩)
  · have all : ∀ (i : Fin 8) (j : Fin 4),
        Suffix.stackModes.get i ≠ Suffix.blockModes.get j := by decide
    rw [glue, glue, hv, hw'] at hg
    exact all _ _ (by simpa [String.join, Suffix.text] using hg)
  · exact operandSigns_ne_of_branch hv hw' ho
  · exact operandSigns_ne_of_status hv hw' (hw.bit bit) ho

/-- Equal lines of words with a meaning come from one entry and one condition. -/
theorem ofWord_eq_and_condition_eq {loc : Addr} {v w : Word} (hv : ¬(ofWord v).Undefined)
    (hw : ¬(ofWord w).Undefined)
    (h : Call.join (Recorder.trace loc v false) = Call.join (Recorder.trace loc w false)) :
    ofWord v = ofWord w ∧ ((ofWord v).Unconditional ∨ v.field 28 4 = w.field 28 4) := by
  obtain ⟨hm, ho⟩ := Instruction.mnemonic_and_operands_of_join_eq h
  have words : (ofWord v).mnemonic v = (ofWord w).mnemonic w := hm
  obtain ⟨hn, hc, hg⟩ := mnemonic_inj (ofWord_mem hv) (ofWord_mem hw) words
  have same : ofWord v = ofWord w := by
    rcases twins_of_name_eq (ofWord_mem hv) (ofWord_mem hw) hn hv with same | twin | twin
    · exact same
    · exact absurd twin (not_twin (matches_ofWord hw) hg ho)
    · exact absurd twin (not_twin (matches_ofWord hv) hg.symm ho.symm)
  refine ⟨same, or_iff_not_imp_left.2 fun hu => ?_⟩
  have none (u : Word) (hs : ofWord u = ofWord w) : (ofWord u).condition u =
      Condition.suffix (u.field 28 4) := if_neg (by rw [hs]; exact not_or.2 ⟨same ▸ hu, hw⟩)
  rw [none v same, none w rfl] at hc
  exact Condition.suffix_inj hc

/-- Bits 15 to 12 of a multiplication are not shown, so two words have one line. -/
theorem ofWord_eq_and_condition_eq_multiply :
    ¬(ofWord 0xe0000291).Undefined ∧ ¬(ofWord 0xe0001291).Undefined ∧
      Call.join (Recorder.trace 0x8000 0xe0000291 false) =
        Call.join (Recorder.trace 0x8000 0xe0001291 false) ∧
      ofWord 0xe0000291 = ofWord 0xe0001291 ∧
      ((ofWord 0xe0000291).Unconditional ∨
        (0xe0000291 : Word).field 28 4 = (0xe0001291 : Word).field 28 4) := by
  have hv : ¬(ofWord 0xe0000291).Undefined := by decide +kernel
  have hw : ¬(ofWord 0xe0001291).Undefined := by decide +kernel
  have h : Call.join (Recorder.trace 0x8000 0xe0000291 false) =
      Call.join (Recorder.trace 0x8000 0xe0001291 false) := by decide +kernel
  exact ⟨hv, hw, h, ofWord_eq_and_condition_eq hv hw h⟩

end Entry

end Disarm
