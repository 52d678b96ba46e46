import Disarm.Proofs.OperandBits
/-!
Operands read back from a line. What stands in front of an address, a second operand or a register
set holds no comma, so equal lines end in equal operands. Main statement: words of one entry with
equal lines agree in the bits of these operands.
-/

namespace Disarm

open Word Text

/-! ### Operand lists -/

def Operand.Commaless (o : Operand) : Prop := ∀ x ∈ o.signs, x ≠ .char ','

theorem Operand.commaless {o : Operand} {t : String} (e : o.fused = [.text t])
    (h : Over (· ≠ ',') t) : o.Commaless := by
  rintro x hx rfl
  rw [signs, e, Piece.signs_text] at hx
  exact h ',' (Sign.char_mem_map.1 hx) rfl

namespace Slot

/-- Slots of one operand that holds no comma. -/
def Brief (s : Slot) : Prop := s ∈ [rd, rn, base, statusFields, coprocessor, fd, floatCount]

instance (s : Slot) : Decidable s.Brief := inferInstanceAs (Decidable (_ ∈ _))

/-- Slots of an address, a second operand or a set of registers. -/
def Final (s : Slot) : Prop :=
  s ∈ [flexible, address, splitAddress, registers, coprocessorTransfer, coprocessorAddress]

instance (s : Slot) : Decidable s.Final := inferInstanceAs (Decidable (_ ∈ _))

theorem Brief.commaless {s : Slot} (h : s.Brief) (loc : Addr) (w : Word) :
    ∀ o ∈ s.operands loc w, o.Commaless := by
  have letters {t : String} (ht : Over Letter t) : Over (· ≠ ',') t :=
    ht.mono fun c hc e => absurd (e ▸ hc) (by decide)
  have number (n : Nat) : Over (· ≠ ',') (toString n) := letters (over_decimal n)
  intro o ho
  cases s with
  | rd | rn =>
    rw [List.mem_singleton.1 ho]
    exact Operand.commaless rfl (letters (Register.over_name _))
  | base =>
    rw [List.mem_singleton.1 ho]
    exact Operand.commaless rfl
      (over_append.2 ⟨letters (Register.over_name _), over_mark (by decide)⟩)
  | statusFields =>
    rw [List.mem_singleton.1 ho]
    exact Operand.commaless rfl
      ((Entry.over_status _ _).mono fun c hc e => absurd (e ▸ hc) (by decide))
  | coprocessor | fd =>
    rw [List.mem_singleton.1 ho]
    exact Operand.commaless rfl (over_append.2 ⟨by decide, number _⟩)
  | floatCount =>
    rw [List.mem_singleton.1 ho]
    exact Operand.commaless rfl (number _)
  | _ => exact absurd h (by decide)

theorem Final.commaless {s : Slot} (h : s.Final) (loc : Addr) (w : Word) :
    ∀ o ∈ (s.operands loc w).dropLast, o.Commaless := by
  intro o ho
  cases s with
  | flexible | address | splitAddress | registers | coprocessorAddress => cases ho
  | coprocessorTransfer =>
    rw [List.mem_singleton.1 ho]
    exact Operand.commaless rfl (over_append.2
      ⟨by decide, (over_decimal _).mono fun c hc e => absurd (e ▸ hc) (by decide)⟩)
  | _ => exact absurd h (by decide)

theorem length_operands (loc : Addr) (v w : Word) (s : Slot) :
    (s.operands loc v).length = (s.operands loc w).length := by
  cases s <;> simp only [operands, List.length_cons, List.length_nil]

def last (loc : Addr) (w : Word) (s : Slot) : Operand :=
  (s.operands loc w).getLast (s.operands_ne_nil loc w)

theorem operands_eq_concat (loc : Addr) (w : Word) (s : Slot) :
    s.operands loc w = (s.operands loc w).dropLast ++ [s.last loc w] :=
  (List.dropLast_append_getLast _).symm

end Slot

namespace Entry

def front (loc : Addr) (w : Word) (l : List Slot) (s : Slot) : List Operand :=
  l.flatMap (Slot.operands loc w) ++ (s.operands loc w).dropLast

theorem operands_eq_concat {w : Word} {l : List Slot} {s : Slot} (e : (ofWord w).slots = l ++ [s])
    (loc : Addr) : (ofWord w).operands loc w = front loc w l s ++ [s.last loc w] := by
  rw [operands, e, List.flatMap_append, List.flatMap_singleton, s.operands_eq_concat, front,
    List.append_assoc]

theorem forall_mem_front {P : Operand → Prop} {loc : Addr} {w : Word} {l : List Slot} {s : Slot}
    (hl : ∀ t ∈ l, ∀ o ∈ t.operands loc w, P o) (hs : ∀ o ∈ (s.operands loc w).dropLast, P o) :
    ∀ o ∈ front loc w l s, P o := by
  intro o ho
  rcases List.mem_append.1 ho with ho | ho
  · obtain ⟨t, ht, ho⟩ := List.mem_flatMap.1 ho
    exact hl t ht o ho
  · exact hs o ho

theorem slots_eq_concat_of_final {w : Word} {s : Slot} (h : s ∈ (ofWord w).slots) (hs : s.Final) :
    ∃ l, (ofWord w).slots = l ++ [s] ∧ ∀ t ∈ l, t.Brief := by
  have all : ∀ e ∈ table, ∀ s ∈ e.slots, s.Final →
      s ∈ e.slots.getLast? ∧ ∀ t ∈ e.slots.dropLast, t.Brief := by
    decide +kernel
  rcases ofWord_mem_or_eq w with hw | hw
  · obtain ⟨last, brief⟩ := all _ hw s h hs
    exact ⟨_, (List.dropLast_append_getLast? s last).symm, brief⟩
  · rw [hw] at h
    rw [List.mem_singleton.1 h] at hs
    exact absurd hs (by decide)

theorem commaless_front {w : Word} {l : List Slot} {s : Slot} (hl : ∀ t ∈ l, t.Brief)
    (hs : s.Final) (loc : Addr) : ∀ o ∈ front loc w l s, o.Commaless :=
  forall_mem_front (fun t ht => (hl t ht).commaless loc w) (hs.commaless loc w)

theorem length_front (loc : Addr) (v w : Word) (l : List Slot) (s : Slot) :
    (front loc v l s).length = (front loc w l s).length := by
  simp only [front, List.length_append, List.length_flatMap, List.length_dropLast,
    Slot.length_operands loc v w]

/-- Equal lines end in equal operands. -/
theorem last_signs_eq {loc : Addr} {v w : Word} (same : ofWord v = ofWord w)
    (h : (Instruction.decode loc v).operandSigns = (Instruction.decode loc w).operandSigns)
    {s : Slot} (mem : s ∈ (ofWord v).slots) (hs : s.Final) :
    (s.last loc v).signs = (s.last loc w).signs := by
  obtain ⟨l, e, hl⟩ := slots_eq_concat_of_final mem hs
  have list (u : Word) (hu : (ofWord u).slots = l ++ [s]) :
      ((ofWord u).operands loc u).map Operand.signs =
        (front loc u l s).map Operand.signs ++ [(s.last loc u).signs] := by
    rw [operands_eq_concat hu, List.map_append, List.map_singleton]
  have commaless (u : Word) : ∀ signs ∈ (front loc u l s).map Operand.signs,
      ∀ x ∈ signs, x ≠ .char ',' := by
    intro signs hsigns
    obtain ⟨o, ho, rfl⟩ := List.mem_map.1 hsigns
    exact commaless_front hl hs loc o ho
  rw [Instruction.operandSigns_eq_intercalate, Instruction.operandSigns_eq_intercalate] at h
  change PlainLine.comma.intercalate (((ofWord v).operands loc v).map Operand.signs) =
    PlainLine.comma.intercalate (((ofWord w).operands loc w).map Operand.signs) at h
  rw [list v e, list w (same ▸ e)] at h
  refine intercalate_concat_inj (p := (· ≠ Sign.char ',')) (not_not_intro rfl) (commaless v)
    (commaless w) ?_ h
  rw [List.length_map, List.length_map, length_front loc v w]

end Entry

/-! ### Lines -/

theorem Instruction.operandSigns_eq_of_join_eq {loc : Addr} {v w : Word} {raw : Bool}
    (h : Call.join (Recorder.trace loc v raw) = Call.join (Recorder.trace loc w raw)) :
    (decode loc v).operandSigns = (decode loc w).operandSigns := by
  cases raw with
  | false => exact (mnemonic_and_operands_of_join_eq h).2
  | true =>
    have signs := congrArg Call.signs h
    rw [Call.signs_join, Call.signs_join, Recorder.trace_eq, Recorder.trace_eq,
      ← Recorder.printed_eq, ← Recorder.printed_eq, Call.signs, Call.signs,
      Recorder.signs_printed_raw, Recorder.signs_printed_raw] at signs
    have long (n : Nat) : ((Hex.places 8 n).map Sign.char).length = 8 := by
      rw [List.length_map, Hex.length_places]
    obtain ⟨digits, -⟩ := List.append_inj (List.cons.inj signs).2 ((long _).trans (long _).symm)
    rw [BitVec.eq_of_toNat_eq (Hex.places_inj v.isLt w.isLt (Sign.map_char_inj digits))]

/-- Words of one entry with equal lines agree in the bits of their addresses, of their second
operand and of their registers. -/
theorem Entry.operands_read_back {loc : Addr} {v w : Word} {raw : Bool}
    (same : ofWord v = ofWord w)
    (h : Call.join (Recorder.trace loc v raw) = Call.join (Recorder.trace loc w raw)) :
    (.address ∈ (ofWord v).slots → SameTransfer v w) ∧
    (.splitAddress ∈ (ofWord v).slots → SameHalfwordTransfer v w) ∧
    (.coprocessorAddress ∈ (ofWord v).slots ∨ .coprocessorTransfer ∈ (ofWord v).slots →
      SameCoprocessorTransfer v w) ∧
    (.flexible ∈ (ofWord v).slots → SameFlexible v w) ∧
    (.registers ∈ (ofWord v).slots → SameRegisters v w) := by
  have last {s : Slot} (mem : s ∈ (ofWord v).slots) (hs : s.Final) :
      (s.last loc v).signs = (s.last loc w).signs :=
    last_signs_eq same (Instruction.operandSigns_eq_of_join_eq h) mem hs
  refine ⟨fun mem => ?_, fun mem => ?_, fun mem => ?_, fun mem => ?_, fun mem => ?_⟩
  · exact Memory.ofTransfer_inj (Memory.signs_inj (last mem (by decide)))
  · exact Memory.ofHalfwordTransfer_inj (Memory.signs_inj (last mem (by decide)))
  · rcases mem with mem | mem
    · exact Memory.ofCoprocessorTransfer_inj (Memory.signs_inj (last mem (by decide)))
    · exact Memory.ofCoprocessorTransfer_inj (Memory.signs_inj (last mem (by decide)))
  · exact Operand.flexible_inj (last mem (by decide))
  · obtain ⟨members, user⟩ := Operand.registers_inj (last mem (by decide))
    exact ⟨members, user⟩

/-- A load from the program counter has one line, whether nothing is added or subtracted. -/
theorem Entry.operands_read_back_zero :
    ofWord 0xe59f0000 = ofWord 0xe51f0000 ∧
      Call.join (Recorder.trace 0x8000 0xe59f0000 false) =
        Call.join (Recorder.trace 0x8000 0xe51f0000 false) ∧
      .address ∈ (ofWord 0xe59f0000).slots ∧ SameTransfer 0xe59f0000 0xe51f0000 := by
  have same : ofWord 0xe59f0000 = ofWord 0xe51f0000 := by decide +kernel
  have h : Call.join (Recorder.trace 0x8000 0xe59f0000 false) =
      Call.join (Recorder.trace 0x8000 0xe51f0000 false) := by decide +kernel
  have mem : .address ∈ (ofWord 0xe59f0000).slots := by decide +kernel
  exact ⟨same, h, mem, (operands_read_back same h).1 mem⟩

end Disarm
