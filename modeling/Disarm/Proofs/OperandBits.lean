import Disarm.Proofs.OperandText
import Disarm.Proofs.PrintedAddress
/-!
Bits read back from an operand. An operand's form, registers, numbers and signs are those of the
word it was read off; only the sign of a zero distance from the program counter is lost. Main
statement: words with equal memory operands or equal second operands agree in the bits of these.
-/

namespace Disarm

/-! ### What a line tells -/

namespace Word

/-- The same base and the same way of indexing. Bit 21 is told where the offset is applied first. -/
structure SameBase (v w : Word) : Prop where
  base : v.field 16 4 = w.field 16 4
  pre : v.bit 24 = w.bit 24
  writeback : v.bit 24 = true → v.bit 21 = w.bit 21

/-- The same sign. A distance of zero from the program counter does not tell its sign. -/
def SameSign (zero : Prop) (v w : Word) : Prop := v.bit 23 = w.bit 23 ∨ v.CounterBased ∧ zero

structure SameShift (v w : Word) : Prop where
  form : v.bit 4 = w.bit 4
  kind : v.field 5 2 = w.field 5 2
  register : v.bit 4 = true → v.field 8 4 = w.field 8 4
  amount : v.bit 4 = false → v.field 7 5 = w.field 7 5

structure SameTransfer (v w : Word) : Prop extends SameBase v w where
  form : v.bit 25 = w.bit 25
  immediate : v.bit 25 = false →
    v.field 0 12 = w.field 0 12 ∧ SameSign (v.field 0 12 = 0) v w
  register : v.bit 25 = true →
    v.bit 23 = w.bit 23 ∧ v.field 0 4 = w.field 0 4 ∧ SameShift v w

structure SameHalfwordTransfer (v w : Word) : Prop extends SameBase v w where
  form : v.bit 22 = w.bit 22
  immediate : v.bit 22 = true →
    v.field 8 4 = w.field 8 4 ∧ v.field 0 4 = w.field 0 4 ∧
      SameSign (v.field 8 4 = 0 ∧ v.field 0 4 = 0) v w
  register : v.bit 22 = false → v.bit 23 = w.bit 23 ∧ v.field 0 4 = w.field 0 4

/-- The same address of a coprocessor transfer. Bits 7 to 0 are the offset, or the option where the
base is neither advanced nor changed; an option has no sign. -/
structure SameCoprocessorTransfer (v w : Word) : Prop extends SameBase v w where
  changed : v.bit 21 = w.bit 21
  low : v.field 0 8 = w.field 0 8
  sign : v.bit 24 = true ∨ v.bit 21 = true → SameSign (v.field 0 8 = 0) v w

def rotated (w : Word) : Word := ((w.field 0 8).setWidth 32).rotateRight (2 * (w.field 8 4).toNat)

structure SameFlexible (v w : Word) : Prop where
  form : v.bit 25 = w.bit 25
  immediate : v.bit 25 = true → v.rotated = w.rotated
  register : v.bit 25 = false → v.field 0 4 = w.field 0 4 ∧ SameShift v w

structure SameRegisters (v w : Word) : Prop where
  members : v.field 0 16 = w.field 0 16
  user : v.bit 22 = w.bit 22

end Word

open Word

/-! ### Shifts -/

theorem ShiftKind.ofField_inj {k l : BitVec 2} (h : ofField k = ofField l) : k = l := by
  revert k l
  decide

namespace Shift

def ofZero : ShiftKind → Shift
  | .lsl => .none
  | .ror => .extend
  | kind => .constant kind 32

def encoded (kind : ShiftKind) (amount : Nat) : Shift :=
  if amount = 0 then ofZero kind else .constant kind amount

theorem ofWord_eq (w : Word) :
    ofWord w = if w.bit 4 then .register (.ofField (w.field 5 2)) (w.field 8 4)
      else encoded (.ofField (w.field 5 2)) (w.field 7 5).toNat := by
  unfold ofWord encoded
  cases ShiftKind.ofField (w.field 5 2) <;> rfl

theorem ofZero_inj {k l : ShiftKind} (h : ofZero k = ofZero l) : k = l := by
  revert h
  cases k <;> cases l <;> decide

theorem ofZero_ne_constant (k l : ShiftKind) {n : Nat} (hn : n < 32) :
    ofZero k ≠ .constant l n := by
  intro h
  cases k with
  | lsl | ror => cases h
  | lsr | asr =>
    rw [← (Shift.constant.inj h).2] at hn
    exact absurd hn (by decide)

/-- The meanings of zero differ from one another and from amounts below 32. -/
theorem encoded_inj {k l : ShiftKind} {m n : Nat} (hm : m < 32) (hn : n < 32)
    (h : encoded k m = encoded l n) : k = l ∧ m = n := by
  obtain ⟨side, zero, amount⟩ :=
    alternative_inj (ofZero_ne_constant k l hn) (ofZero_ne_constant l k hm).symm h
  by_cases hz : m = 0
  · exact ⟨ofZero_inj (zero hz), hz.trans (side.1 hz).symm⟩
  · exact Shift.constant.inj (amount hz)

theorem encoded_ne_register (k : ShiftKind) (n : Nat) (l : ShiftKind) (r : Register) :
    encoded k n ≠ .register l r := by
  unfold encoded
  split
  · cases k <;> nofun
  · nofun

theorem ofWord_inj {v w : Word} (h : ofWord v = ofWord w) : SameShift v w := by
  rw [ofWord_eq, ofWord_eq] at h
  obtain ⟨form, register, constant⟩ :=
    alternative_inj_bool (encoded_ne_register _ _ _ _).symm (encoded_ne_register _ _ _ _) h
  cases hv : v.bit 4 with
  | true =>
    obtain ⟨kind, r⟩ := Shift.register.inj (register hv)
    exact {
      form
      kind := ShiftKind.ofField_inj kind
      register := fun _ => r
      amount := fun e => nomatch hv.symm.trans e }
  | false =>
    obtain ⟨kind, amount⟩ := encoded_inj (v.field 7 5).isLt (w.field 7 5).isLt (constant hv)
    exact {
      form
      kind := ShiftKind.ofField_inj kind
      register := fun e => nomatch hv.symm.trans e
      amount := fun _ => BitVec.eq_of_toNat_eq amount }

end Shift

/-! ### Memory operands -/

namespace Memory

theorem withOffset_inj {v w : Word} {o p : Offset} (h : withOffset v o = withOffset w p) :
    SameBase v w ∧ o = p := by
  have apart (r q : Register) (o p : Offset) (b : Bool) :
      preIndexed r o b ≠ postIndexed q p := nofun
  obtain ⟨order, before, after⟩ :=
    alternative_inj_bool (apart _ _ _ _ _) (apart _ _ _ _ _).symm h
  cases hv : v.bit 24 with
  | true =>
    obtain ⟨base, offset, writeback⟩ := preIndexed.inj (before hv)
    exact ⟨⟨base, order, fun _ => writeback⟩, offset⟩
  | false =>
    obtain ⟨base, offset⟩ := postIndexed.inj (after hv)
    exact ⟨⟨base, order, fun e => nomatch hv.symm.trans e⟩, offset⟩

/-- Distances from one place are equal in size, and of one direction unless they are zero. -/
theorem literalTarget_inj {loc : Addr} {a b : Bool} {m n : Word} (hm : m.toNat < 4096)
    (hn : n.toNat < 4096) (h : literalTarget loc a m = literalTarget loc b n) :
    m = n ∧ (a = b ∨ m = 0) := by
  cases a with
  | true =>
    cases b with
    | true => exact ⟨BitVec.add_right_inj _ |>.1 h, .inl rfl⟩
    | false =>
      have eq : loc + 8 + m = loc + 8 - n := h
      have zero : m = 0 ∧ n = 0 := by bv_omega
      exact ⟨zero.1.trans zero.2.symm, .inr zero.1⟩
  | false =>
    cases b with
    | true =>
      have eq : loc + 8 - m = loc + 8 + n := h
      have zero : m = 0 ∧ n = 0 := by bv_omega
      exact ⟨zero.1.trans zero.2.symm, .inr zero.1⟩
    | false =>
      have eq : loc + 8 - m = loc + 8 - n := h
      exact ⟨by bv_omega, .inl rfl⟩

theorem constant_eq (loc : Addr) (w m : Word) :
    constant loc w m = if w.CounterBased then literal (literalTarget loc (up w) m)
      else withOffset w (.immediate (up w) m) := rfl

theorem withOffset_ne_literal (w : Word) (o : Offset) (a : Addr) : withOffset w o ≠ literal a := by
  intro h
  have unknown := address?_withOffset w o
  rw [h] at unknown
  cases unknown

theorem constant_inj {loc : Addr} {v w : Word} {m n : Nat} (hm : m < 4096) (hn : n < 4096)
    (h : constant loc v (.ofNat 32 m) = constant loc w (.ofNat 32 n)) :
    SameBase v w ∧ m = n ∧ SameSign (m = 0) v w := by
  have value (e : BitVec.ofNat 32 m = .ofNat 32 n) : m = n := by bv_omega
  obtain ⟨counter, known, indexed⟩ := alternative_inj (withOffset_ne_literal w _ _).symm
    (withOffset_ne_literal v _ _) ((constant_eq loc v _).symm.trans (h.trans (constant_eq loc w _)))
  by_cases hv : v.CounterBased
  · obtain ⟨size, sign⟩ := literalTarget_inj (by bv_omega) (by bv_omega) (literal.inj (known hv))
    have ⟨base, pre, writeback⟩ := hv
    obtain ⟨base', pre', writeback'⟩ := counter.1 hv
    exact ⟨⟨base.trans base'.symm, pre.trans pre'.symm, fun _ => writeback.trans writeback'.symm⟩,
      value size, sign.imp id fun zero => ⟨hv, by bv_omega⟩⟩
  · obtain ⟨base, offset⟩ := withOffset_inj (indexed hv)
    obtain ⟨sign, size⟩ := Offset.immediate.inj offset
    exact ⟨base, value size, .inl sign⟩

theorem constant_ne_register (loc : Addr) (v w m : Word) (up : Bool) (r : Register) (s : Shift) :
    constant loc v m ≠ withOffset w (.register up r s) := by
  intro h
  rw [constant_eq] at h
  split at h
  · exact withOffset_ne_literal w _ _ h.symm
  · exact nomatch (withOffset_inj h).2

theorem ofTransfer_inj {loc : Addr} {v w : Word} (h : ofTransfer loc v = ofTransfer loc w) :
    SameTransfer v w := by
  obtain ⟨form, register, immediate⟩ :=
    alternative_inj_bool (constant_ne_register _ _ _ _ _ _ _).symm
      (constant_ne_register _ _ _ _ _ _ _) h
  cases hv : v.bit 25 with
  | true =>
    obtain ⟨base, offset⟩ := withOffset_inj (register hv)
    obtain ⟨sign, r, shift⟩ := Offset.register.inj offset
    exact { base with
      form
      immediate := fun e => nomatch hv.symm.trans e
      register := fun _ => ⟨sign, r, Shift.ofWord_inj shift⟩ }
  | false =>
    have offsets := immediate hv
    rw [← BitVec.ofNat_toNat 32 (v.field 0 12), ← BitVec.ofNat_toNat 32 (w.field 0 12)] at offsets
    obtain ⟨base, size, sign⟩ := constant_inj (v.field 0 12).isLt (w.field 0 12).isLt offsets
    exact { base with
      form
      immediate := fun _ => ⟨BitVec.eq_of_toNat_eq size,
        sign.imp id (And.imp id BitVec.eq_of_toNat_eq)⟩
      register := fun e => nomatch hv.symm.trans e }

theorem ofHalfwordTransfer_inj {loc : Addr} {v w : Word}
    (h : ofHalfwordTransfer loc v = ofHalfwordTransfer loc w) : SameHalfwordTransfer v w := by
  obtain ⟨form, immediate, register⟩ :=
    alternative_inj_bool (constant_ne_register _ _ _ _ _ _ _)
      (constant_ne_register _ _ _ _ _ _ _).symm h
  cases hv : v.bit 22 with
  | true =>
    have offsets := immediate hv
    have bound (high low : BitVec 4) : 16 * high.toNat + low.toNat < 4096 := by omega
    rw [split_eq, split_eq] at offsets
    obtain ⟨base, size, sign⟩ := constant_inj (bound _ _) (bound _ _) offsets
    have parts : (v.field 8 4).toNat = (w.field 8 4).toNat ∧
        (v.field 0 4).toNat = (w.field 0 4).toNat := by omega
    exact { base with
      form
      immediate := fun _ => ⟨BitVec.eq_of_toNat_eq parts.1, BitVec.eq_of_toNat_eq parts.2,
        sign.imp id (And.imp id fun zero => by bv_omega)⟩
      register := fun e => nomatch hv.symm.trans e }
  | false =>
    obtain ⟨base, offset⟩ := withOffset_inj (register hv)
    obtain ⟨sign, r, -⟩ := Offset.register.inj offset
    exact { base with
      form
      immediate := fun e => nomatch hv.symm.trans e
      register := fun _ => ⟨sign, r⟩ }

theorem unindexed_ne_constant (loc : Addr) (w m : Word) (r : Register) (n : BitVec 8) :
    unindexed r n ≠ constant loc w m := by
  unfold constant withOffset
  split
  · nofun
  · split <;> nofun

theorem ofCoprocessorTransfer_inj {loc : Addr} {v w : Word}
    (h : ofCoprocessorTransfer loc v = ofCoprocessorTransfer loc w) :
    SameCoprocessorTransfer v w := by
  obtain ⟨plain, option, offset⟩ :=
    alternative_inj (unindexed_ne_constant _ _ _ _ _) (unindexed_ne_constant _ _ _ _ _).symm h
  by_cases hv : v.bit 24 = false ∧ v.bit 21 = false
  · obtain ⟨base, low⟩ := unindexed.inj (option hv)
    obtain ⟨pre, writeback⟩ := plain.1 hv
    exact {
      base
      pre := hv.1.trans pre.symm
      writeback := fun _ => hv.2.trans writeback.symm
      changed := hv.2.trans writeback.symm
      low
      sign := by simp only [hv, Bool.false_eq_true, or_self, false_imp_iff] }
  · have offsets := offset hv
    rw [words_eq, words_eq] at offsets
    obtain ⟨base, size, sign⟩ := constant_inj (by omega) (by omega) offsets
    exact { base with
      changed := by
        -- Without pre-indexing bit 21 is set, or there would be no offset.
        cases pre : v.bit 24 with
        | true => exact base.writeback pre
        | false =>
          have pre' := base.pre.symm.trans pre
          have hw := mt plain.2 hv
          have set : v.bit 21 = true := Bool.not_eq_false _ ▸ fun e => hv ⟨pre, e⟩
          have set' : w.bit 21 = true := Bool.not_eq_false _ ▸ fun e => hw ⟨pre', e⟩
          exact set.trans set'.symm
      low := BitVec.eq_of_toNat_eq (by omega)
      sign := fun _ => sign.imp id (And.imp id fun zero => by bv_omega) }

end Memory

/-! ### Other operands -/

theorem Operand.flexible_inj {v w : Word} (h : (flexible v).signs = (flexible w).signs) :
    SameFlexible v w := by
  unfold flexible at h
  rw [apply_ite signs, apply_ite signs] at h
  obtain ⟨form, immediate, register⟩ := alternative_inj_bool (immediate_ne_shifted _ _ _)
    (immediate_ne_shifted _ _ _).symm h
  exact {
    form
    immediate := fun hv => immediate_inj (immediate hv)
    register := fun hv => by
      obtain ⟨r, shift⟩ := shifted_inj (register hv)
      exact ⟨r, Shift.ofWord_inj shift⟩ }

end Disarm
