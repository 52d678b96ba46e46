import Disarm.Proofs.Hexadecimal
import Disarm.Proofs.Readability
import Disarm.Proofs.Runs
/-!
The shape of a line. An operand is an address or a text that is not empty, every entry has an
operand, and nothing an entry prints is a tab or a line end. Main statement: every host makes the
same calls, one read and then calls that print, and what they print is one line: a mnemonic, a tab,
operands and the line end.
-/

namespace Disarm

open Text

/-- Signs of a line before its end: visible characters and addresses. -/
def Sign.Shown : Sign → Prop
  | .char c => Visible c
  | .address _ => True
  | .read _ => False

theorem Piece.shown_of_over {l : List Piece} (h : ∀ p ∈ l, p.Over Visible) :
    ∀ x ∈ signs l, x.Shown := by
  induction l with
  | nil => exact fun x hx => absurd hx List.not_mem_nil
  | cons p l ih =>
    have rest := ih fun q hq => h q (List.mem_cons_of_mem p hq)
    cases p with
    | text t =>
      intro x hx
      rcases List.mem_append.1 hx with hx | hx
      · obtain ⟨c, hc, rfl⟩ := List.mem_map.1 hx
        exact h _ List.mem_cons_self c hc
      · exact rest x hx
    | address a =>
      intro x hx
      rcases List.mem_cons.1 hx with rfl | hx
      · trivial
      · exact rest x hx

/-! ### Operands -/

theorem Text.append_ne_empty {s : String} (h : s ≠ "") (t : String) : s ++ t ≠ "" :=
  fun e => h (String.append_eq_empty_iff.1 e).1

theorem Text.decimal_ne_empty (n : Nat) : toString n ≠ "" := by
  intro e
  have digits := congrArg String.toList e
  rw [Nat.toString_eq_ofList_toDigits, String.toList_ofList] at digits
  exact Nat.toDigits_ne_nil digits

theorem Register.name_ne_empty (r : Register) : r.name ≠ "" := by
  revert r
  decide +kernel

def Memory.address? : Memory → Option Addr
  | .literal a => some a
  | .preIndexed .. | .postIndexed .. | .unindexed .. => none

theorem Memory.fused_cases (m : Memory) :
    (∃ a, m.address? = some a ∧ m.fused = [.address a]) ∨
      m.address? = none ∧ ∃ t, t ≠ "" ∧ m.fused = [.text t] := by
  have bracket : "[" ≠ "" := by decide
  cases m with
  | literal a => exact .inl ⟨a, rfl, rfl⟩
  | preIndexed r o writeback =>
    exact .inr ⟨rfl, _, append_ne_empty (append_ne_empty (append_ne_empty bracket _) _) _, rfl⟩
  | postIndexed r o =>
    exact .inr ⟨rfl, _, append_ne_empty (append_ne_empty (append_ne_empty bracket _) _) _, rfl⟩
  | unindexed r n =>
    exact .inr ⟨rfl, _, append_ne_empty (append_ne_empty (append_ne_empty
      (append_ne_empty bracket _) _) _) _, rfl⟩

namespace Operand

def address? : Operand → Option Addr
  | .memory m => m.address?
  | .target a => some a
  | .register _ | .base .. | .rotated .. | .shifted .. | .immediate _ | .registers .. | .word _
  | .decimal _ | .number _ | .status _ | .statusFields .. | .coprocessor _
  | .coprocessorRegister _ | .float _ | .floatConstant _ => none

theorem statusName_ne_empty (saved : Bool) : statusName saved ≠ "" := by
  cases saved <;> decide

theorem fused_cases (o : Operand) :
    (∃ a, o.address? = some a ∧ o.fused = [.address a]) ∨
      o.address? = none ∧ ∃ t, t ≠ "" ∧ o.fused = [.text t] := by
  cases o with
  | memory m => exact m.fused_cases
  | target a => exact .inl ⟨a, rfl, rfl⟩
  | register r => exact .inr ⟨rfl, _, r.name_ne_empty, rfl⟩
  | base r writeback => exact .inr ⟨rfl, _, append_ne_empty r.name_ne_empty _, rfl⟩
  | rotated r bytes => exact .inr ⟨rfl, _, append_ne_empty r.name_ne_empty _, rfl⟩
  | shifted r s => exact .inr ⟨rfl, _, append_ne_empty r.name_ne_empty _, rfl⟩
  | immediate n => exact .inr ⟨rfl, _, append_ne_empty (by decide) _, rfl⟩
  | registers set user =>
    exact .inr ⟨rfl, _, append_ne_empty (append_ne_empty (append_ne_empty (by decide) _) _) _, rfl⟩
  | word n => exact .inr ⟨rfl, _, append_ne_empty (by decide) _, rfl⟩
  | decimal z => exact .inr ⟨rfl, _, append_ne_empty (by decide) _, rfl⟩
  | number n => exact .inr ⟨rfl, _, decimal_ne_empty n, rfl⟩
  | status saved => exact .inr ⟨rfl, _, statusName_ne_empty saved, rfl⟩
  | statusFields saved fields =>
    exact .inr ⟨rfl, _, append_ne_empty (append_ne_empty (statusName_ne_empty saved) _) _, rfl⟩
  | coprocessor n => exact .inr ⟨rfl, _, append_ne_empty (by decide) _, rfl⟩
  | coprocessorRegister n => exact .inr ⟨rfl, _, append_ne_empty (by decide) _, rfl⟩
  | float n => exact .inr ⟨rfl, _, append_ne_empty (by decide) _, rfl⟩
  | floatConstant n => exact .inr ⟨rfl, _, append_ne_empty (by decide) _, rfl⟩

def signs (o : Operand) : List Sign := Piece.signs o.fused

theorem signs_ne_nil (o : Operand) : o.signs ≠ [] := by
  rcases o.fused_cases with ⟨a, -, e⟩ | ⟨-, t, ht, e⟩
  · rw [signs, e]
    exact List.cons_ne_nil _ _
  · rw [signs, e, Piece.signs_text]
    exact fun h => ht (String.toList_eq_nil_iff.1 (List.map_eq_nil_iff.1 h))

end Operand

namespace Entry

theorem name_ofWord_ne_empty (w : Word) : (ofWord w).name ≠ "" := by
  rcases ofWord_mem_or_eq w with h | h
  · exact fun e => name_ne_empty h (String.toList_eq_nil_iff.2 e)
  · rw [h]
    decide

theorem operands_ne_nil (loc : Addr) (w : Word) : (ofWord w).operands loc w ≠ [] := by
  obtain ⟨s, l, e⟩ := List.exists_cons_of_ne_nil (slots_ne_nil w)
  rw [operands, e, List.flatMap_cons]
  exact fun h => s.operands_ne_nil loc w (List.append_eq_nil_iff.1 h).1

end Entry

/-! ### Lines -/

/-- A line without the raw word, taken apart. -/
structure PlainLine where
  mnemonic : String
  operands : List (List Sign)
  named : mnemonic ≠ ""
  letters : Over Letter mnemonic
  operands_ne_nil : operands ≠ []
  operand_ne_nil : ∀ o ∈ operands, o ≠ []
  shown : ∀ o ∈ operands, ∀ x ∈ o, x.Shown

namespace PlainLine

def comma : List Sign := [.char ',', .char ' ']

def body (l : PlainLine) : List Sign :=
  l.mnemonic.toList.map .char ++ .char '\t' :: comma.intercalate l.operands

def signs (l : PlainLine) : List Sign := l.body ++ [.char '\n']

theorem shown_operands (l : PlainLine) : ∀ x ∈ comma.intercalate l.operands, x.Shown := by
  refine forall_mem_intercalate ?_ l.shown
  intro x hx
  rcases List.mem_cons.1 hx with rfl | hx
  · exact (by decide : Visible ',')
  · rw [List.mem_singleton.1 hx]
    exact (by decide : Visible ' ')

theorem notMem_mnemonic (l : PlainLine) {c : Char} (hc : ¬Letter c) :
    Sign.char c ∉ l.mnemonic.toList.map Sign.char := by
  rw [Sign.char_mem_map]
  exact fun h => hc (l.letters c h)

theorem notMem_operands (l : PlainLine) {c : Char} (hc : ¬Visible c) :
    Sign.char c ∉ comma.intercalate l.operands := fun h => hc (l.shown_operands _ h)

theorem lineEnd_notMem_body (l : PlainLine) : Sign.char '\n' ∉ l.body := by
  simp only [body, List.mem_append, List.mem_cons, not_or]
  exact ⟨l.notMem_mnemonic (by decide), by decide, l.notMem_operands (by decide)⟩

theorem count_tab (l : PlainLine) : l.signs.count (.char '\t') = 1 := by
  rw [signs, body, List.count_append, List.count_append, List.count_cons_self,
    List.count_eq_zero_of_not_mem (l.notMem_mnemonic (by decide)),
    List.count_eq_zero_of_not_mem (l.notMem_operands (by decide))]
  rfl

end PlainLine

/-- The characters a line is made of. -/
def Printable (c : Char) : Prop := Visible c ∨ c = '\t' ∨ c = '\n'

theorem PlainLine.printable (l : PlainLine) {c : Char} (h : .char c ∈ l.signs) : Printable c := by
  simp only [signs, body, List.mem_append, List.mem_cons, List.not_mem_nil, or_false,
    Sign.char.injEq] at h
  rcases h with (h | rfl | h) | rfl
  · exact .inl (l.letters c (Sign.char_mem_map.1 h)).visible
  · exact .inr (.inl rfl)
  · exact .inl (l.shown_operands _ h)
  · exact .inr (.inr rfl)

namespace Instruction

theorem operandSigns_eq_intercalate (loc : Addr) (w : Word) :
    (decode loc w).operandSigns =
      PlainLine.comma.intercalate ((decode loc w).operands.map Operand.signs) := by
  change Piece.signs ((decode loc w).fusedOperands) = _
  rw [fusedOperands, Piece.signs_intercalate, List.map_map]
  rfl

def line (loc : Addr) (w : Word) : PlainLine where
  mnemonic := (decode loc w).mnemonic
  operands := (decode loc w).operands.map Operand.signs
  named := append_ne_empty (append_ne_empty (Entry.name_ofWord_ne_empty w) _) _
  letters := Entry.over_mnemonic w w
  operands_ne_nil := fun h => Entry.operands_ne_nil loc w (List.map_eq_nil_iff.1 h)
  operand_ne_nil := by
    intro o ho
    obtain ⟨p, -, rfl⟩ := List.mem_map.1 ho
    exact p.signs_ne_nil
  shown := by
    intro o ho
    obtain ⟨p, -, rfl⟩ := List.mem_map.1 ho
    exact Piece.shown_of_over p.over_fused

end Instruction

/-! ### Calls -/

def Call.Prints : Call → Prop
  | .text _ | .address _ => True
  | .read _ => False

namespace Recorder

theorem prints_of_mem_printed {loc : Addr} {w : Word} {raw : Bool} {c : Call}
    (h : c ∈ printed loc w raw) : c.Prints := by
  rw [printed_eq] at h
  obtain ⟨p, -, rfl⟩ := List.mem_map.1 h
  cases p <;> trivial

theorem printed_raw (loc : Addr) (w : Word) :
    printed loc w true =
      .text (String.ofList (Hex.places 8 w.toNat) ++ "\t") :: printed loc w false := by
  rw [printed_eq, printed_eq, ← Hex.leftpad_digits (k := 7) w.isLt]
  rfl

theorem signs_printed (loc : Addr) (w : Word) :
    Call.signs (printed loc w false) = (Instruction.line loc w).signs := by
  have signs := Instruction.signs_trace loc w
  rw [trace_eq, ← printed_eq, Call.signs, Instruction.operandSigns_eq_intercalate] at signs
  rw [(List.cons.inj signs).2, PlainLine.signs, PlainLine.body, List.append_assoc]
  rfl

theorem signs_printed_raw (loc : Addr) (w : Word) :
    Call.signs (printed loc w true) =
      (Hex.places 8 w.toNat).map .char ++ .char '\t' :: (Instruction.line loc w).signs := by
  rw [printed_raw, Call.signs, signs_printed]
  simp only [String.toList_append, String.toList_ofList, List.map_append, List.append_assoc]
  rfl

end Recorder

theorem Hex.letter_of_mem_places {k n : Nat} {c : Char} (h : c ∈ places k n) : Letter c := by
  induction k generalizing n with
  | zero => cases h
  | succ k ih =>
    rcases List.mem_append.1 h with h | h
    · exact ih h
    · rw [List.mem_singleton.1 h]
      exact letter_digitChar (Nat.mod_lt n (by decide))

theorem Hex.notMem_places {k n : Nat} {c : Char} (hc : ¬Letter c) :
    Sign.char c ∉ (places k n).map Sign.char := by
  rw [Sign.char_mem_map]
  exact fun h => hc (letter_of_mem_places h)

namespace Recorder

/-- With the raw word or without it, the one line end is the last sign. -/
theorem lineEnd_last (loc : Addr) (w : Word) (raw : Bool) :
    ∃ body, Call.signs (printed loc w raw) = body ++ [.char '\n'] ∧ .char '\n' ∉ body := by
  have plain := (Instruction.line loc w).lineEnd_notMem_body
  cases raw with
  | false => exact ⟨_, signs_printed loc w, plain⟩
  | true =>
    refine ⟨(Hex.places 8 w.toNat).map .char ++ .char '\t' :: (Instruction.line loc w).body, ?_, ?_⟩
    · rw [signs_printed_raw, List.append_assoc]
      rfl
    · simp only [List.mem_append, List.mem_cons, not_or]
      exact ⟨Hex.notMem_places (by decide), by decide, plain⟩

theorem printable_printed {loc : Addr} {w : Word} {raw : Bool} {c : Char}
    (h : .char c ∈ Call.signs (printed loc w raw)) : Printable c := by
  cases raw with
  | false => exact PlainLine.printable _ (signs_printed loc w ▸ h)
  | true =>
    rw [signs_printed_raw] at h
    rcases List.mem_append.1 h with h | h
    · by_contra hc
      exact Hex.notMem_places (fun letter => hc (.inl letter.visible)) h
    · rcases List.mem_cons.1 h with e | h
      · exact .inr (.inl (Sign.char.inj e))
      · exact PlainLine.printable _ h

theorem count_tab_printed (loc : Addr) (w : Word) (raw : Bool) :
    (Call.signs (printed loc w raw)).count (.char '\t') = if raw then 2 else 1 := by
  have plain := (Instruction.line loc w).count_tab
  cases raw with
  | false => rw [signs_printed, plain]; rfl
  | true =>
    rw [signs_printed_raw, List.count_append, List.count_cons_self, plain,
      List.count_eq_zero_of_not_mem (Hex.notMem_places (by decide))]
    rfl

end Recorder

/-- What a host goes through for one word is one read, the events of decoding and calls that print;
word, address and form of the line decide them. What they print is one line. -/
theorem Host.disassemble_shape (loc : Addr) (w : Word) :
    (∀ (σ : Type) (h : Host σ) (s : σ) (raw : Bool), (h.fetch loc s).1 = w →
      h.disassemble loc raw s =
        (loc + 4, h.replay (Recorder.printed loc w raw)
          (h.noteAll ((Instruction.decode loc w).events loc) (h.fetch loc s).2))) ∧
    (∀ raw, Recorder.trace loc w raw = .read loc :: Recorder.printed loc w raw ∧
      (∀ c ∈ Recorder.printed loc w raw, c.Prints) ∧
      (∀ c, .char c ∈ Call.signs (Recorder.printed loc w raw) → Printable c) ∧
      (∃ body, Call.signs (Recorder.printed loc w raw) = body ++ [.char '\n'] ∧
        .char '\n' ∉ body) ∧
      (Call.signs (Recorder.printed loc w raw)).count (.char '\t') = if raw then 2 else 1) ∧
    Recorder.printed loc w true =
      .text (String.ofList (Hex.places 8 w.toNat) ++ "\t") :: Recorder.printed loc w false ∧
    ∃ line : PlainLine, Call.signs (Recorder.printed loc w false) = line.signs ∧
      (Entry.ofWord w).name ≠ "" ∧ (Entry.ofWord w).name.toList <+: line.mnemonic.toList := by
  refine ⟨?_, fun raw => ⟨?_, ?_, ?_, ?_, ?_⟩, Recorder.printed_raw loc w, ?_⟩
  · rintro σ h s raw rfl
    exact h.disassemble_eq_replay loc raw s
  · rw [Recorder.trace_eq, Recorder.printed_eq]
  · exact fun c => Recorder.prints_of_mem_printed
  · exact fun c => Recorder.printable_printed
  · exact Recorder.lineEnd_last loc w raw
  · exact Recorder.count_tab_printed loc w raw
  · refine ⟨Instruction.line loc w, Recorder.signs_printed loc w, Entry.name_ofWord_ne_empty w, ?_⟩
    exact ⟨_, (Entry.toList_mnemonic _ w).symm⟩

/-- A branch to itself at the top of the address space: the address after it wraps, and its one
operand is an address. -/
theorem Host.disassemble_shape_at_top :
    (Recorder.host.disassemble 0xfffffffc true { memory := fun _ => 0xeafffffe }).1 = 0 ∧
      Recorder.trace 0xfffffffc 0xeafffffe true =
        [.read 0xfffffffc, .text "eafffffe\t", .text "b", .text "", .text "\t",
          .address 0xfffffffc, .text "\n"] := by
  obtain ⟨run, shape, raw, -⟩ := Host.disassemble_shape 0xfffffffc 0xeafffffe
  have calls : Recorder.printed 0xfffffffc 0xeafffffe false =
      [.text "b", .text "", .text "\t", .address 0xfffffffc, .text "\n"] := by decide +kernel
  have digits : String.ofList (Hex.places 8 (0xeafffffe : Word).toNat) ++ "\t" = "eafffffe\t" := by
    decide +kernel
  refine ⟨?_, ?_⟩
  · rw [run Recorder Recorder.host _ true rfl]
    decide
  · rw [(shape true).1, raw, calls, digits]

end Disarm
