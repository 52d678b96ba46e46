import Disarm.Proofs.Recording
/-!
The text of a line, however it is cut. A line is handed over in many small pieces; where only its text
matters an operand is taken as one piece and a mnemonic as one word. Main statement: the pieces of a
line show its mnemonic, a tab and its operands with a comma and a blank between them.
-/

namespace Disarm

section separators

variable {α : Type}

/-- What respects putting together respects putting together with separators. -/
theorem intercalate_hom {β : Type} {f : List α → List β} (nil : f [] = [])
    (append : ∀ l m, f (l ++ m) = f l ++ f m) (sep : List α) (ls : List (List α)) :
    f (sep.intercalate ls) = (f sep).intercalate (ls.map f) := by
  induction ls with
  | nil => exact nil
  | cons l ls ih =>
    cases ls with
    | nil => simp only [List.map_cons, List.map_nil, List.intercalate_singleton]
    | cons m ms =>
      rw [List.intercalate_cons_cons, append, append, ih]
      simp only [List.map_cons, List.intercalate_cons_cons]

theorem intercalate_cons (sep l : List α) (ls : List (List α)) :
    sep.intercalate (l :: ls) = l ++ ls.flatMap (sep ++ ·) := by
  induction ls generalizing l with
  | nil => rw [List.intercalate_singleton, List.flatMap_nil, List.append_nil]
  | cons m ls ih =>
    rw [List.intercalate_cons_cons, ih, List.flatMap_cons, List.append_assoc, List.append_assoc]

end separators

/-! ### Signs of pieces -/

namespace Piece

def signs (l : List Piece) : List Sign := Call.signs (l.map call)

theorem signs_nil : signs [] = [] := rfl

theorem signs_text_cons (t : String) (l : List Piece) :
    signs (.text t :: l) = t.toList.map .char ++ signs l := rfl

theorem signs_address_cons (a : Addr) (l : List Piece) :
    signs (.address a :: l) = .address a :: signs l := rfl

theorem signs_append (l m : List Piece) : signs (l ++ m) = signs l ++ signs m := by
  rw [signs, List.map_append, Call.signs_append]
  rfl

theorem signs_text (t : String) : signs [.text t] = t.toList.map .char := List.append_nil _

theorem signs_intercalate (sep : List Piece) (ls : List (List Piece)) :
    signs (sep.intercalate ls) = (signs sep).intercalate (ls.map signs) :=
  intercalate_hom rfl signs_append sep ls

theorem signs_fuse (l : List Piece) : signs (fuse l) = signs l := by
  induction l with
  | nil => rfl
  | cons p l ih =>
    cases p with
    | text s =>
      rw [fuse, signs_text_cons, ← ih]
      split
      · next e =>
        rw [e, signs_text_cons, signs_text_cons, String.toList_append, List.map_append,
          List.append_assoc]
      · rw [signs_text_cons]
    | address a => rw [fuse, signs_address_cons, signs_address_cons, ih]

/-- The text of a list of pieces is told from its signs. -/
theorem render_congr {l m : List Piece} (h : signs l = signs m) (f : Addr → String) :
    render f l = render f m := by
  have spelled (l : List Piece) : (render f l).toList = (signs l).flatMap fun
      | .char c => [c]
      | .address a => (f a).toList
      | .read _ => [] := by
    induction l with
    | nil => rfl
    | cons p l ih =>
      cases p with
      | text t => simp [render, signs_text_cons, ih, List.flatMap_map]
      | address a => simp [render, signs_address_cons, ih]
  rw [← String.toList_inj, spelled, spelled, h]

def IsText : Piece → Prop
  | .text _ => True
  | .address _ => False

theorem isText_fuse {l : List Piece} (h : ∀ p ∈ l, p.IsText) : ∀ p ∈ fuse l, p.IsText := by
  induction l with
  | nil => exact h
  | cons p l ih =>
    obtain ⟨first, rest⟩ := List.forall_mem_cons.1 h
    cases p with
    | address a => exact first.elim
    | text s =>
      rw [fuse]
      split
      · next e =>
        have tail := ih rest
        rw [e] at tail
        exact List.forall_mem_cons.2 ⟨trivial, (List.forall_mem_cons.1 tail).2⟩
      · exact List.forall_mem_cons.2 ⟨trivial, ih rest⟩

end Piece

/-! ### Operands in one piece -/

def Memory.fused : Memory → List Piece
  | .literal target => [.address target]
  | .preIndexed base offset writeback =>
    let inner := if offset.Omitted then base.name else base.name ++ ", " ++ offset.text
    [.text ("[" ++ inner ++ "]" ++ if writeback then "!" else "")]
  | .postIndexed base offset => [.text ("[" ++ base.name ++ "], " ++ offset.text)]
  | .unindexed base option =>
    [.text ("[" ++ base.name ++ "], \x7b" ++ toString option.toNat ++ "\x7d")]

def Operand.fused : Operand → List Piece
  | .base r writeback => [.text (r.name ++ if writeback then "!" else "")]
  | .rotated r bytes =>
    [.text (r.name ++ if bytes = 0 then "" else ", ror #" ++ toString (8 * bytes.toNat))]
  | .shifted r shift => [.text (r.name ++ shift.text)]
  | .memory m => m.fused
  | .registers set user =>
    [.text ("\x7b" ++ ", ".intercalate ((members set).map Register.name) ++ "\x7d" ++
      if user then "^" else "")]
  | .statusFields saved fields => [.text (statusName saved ++ "_" ++ fieldLetters fields)]
  | o => o.pieces Offset.pieces

open Piece

theorem Shift.signs_pieces (s : Shift) : signs s.pieces = s.text.toList.map .char := by
  cases s with
  | none => rfl
  | _ => exact signs_text _

theorem Shift.isText_pieces (s : Shift) : ∀ p ∈ s.pieces, p.IsText := by
  cases s <;> simp [pieces, IsText]

theorem Offset.signs_pieces (o : Offset) : signs o.pieces = signs [.text o.text] := by
  cases o with
  | immediate up n => rfl
  | register up r shift =>
    simp only [pieces, text, signs_text_cons, signs_nil, shift.signs_pieces, String.toList_append,
      List.map_append, List.append_assoc, List.append_nil]

theorem Offset.isText_pieces (o : Offset) : ∀ p ∈ o.pieces, p.IsText := by
  cases o with
  | immediate up n => simp [pieces, IsText]
  | register up r shift =>
    exact List.forall_mem_cons.2 ⟨trivial, List.forall_mem_cons.2 ⟨trivial, shift.isText_pieces⟩⟩

section cut

variable {cut : Offset → List Piece} (whole : ∀ o, signs (cut o) = signs [.text o.text])
include whole

theorem Memory.signs_pieces (m : Memory) : signs (m.pieces cut) = signs m.fused := by
  cases m with
  | literal a => rfl
  | unindexed base option => rfl
  | postIndexed base offset =>
    simp only [pieces, fused, signs_text_cons, whole, signs_nil, String.toList_append,
      List.map_append, List.append_assoc, List.append_nil]
  | preIndexed base offset writeback =>
    by_cases omitted : offset.Omitted <;> cases writeback <;>
      simp [pieces, fused, omitted, signs_text_cons, signs_append, whole, signs_nil]

theorem Operand.signs_pieces (o : Operand) : signs (o.pieces cut) = signs o.fused := by
  cases o with
  | memory m => exact m.signs_pieces whole
  | base r writeback => cases writeback <;> simp [pieces, fused, signs_text_cons, signs_nil]
  | rotated r bytes =>
    simp only [pieces, fused, signs_text_cons, signs_nil, String.toList_append, List.map_append,
      List.append_nil]
    split
    · rfl
    · rw [signs_text]
  | shifted r shift =>
    simp only [pieces, fused, signs_text_cons, signs_nil, shift.signs_pieces,
      String.toList_append, List.map_append, List.append_nil]
  | registers set user =>
    have names : signs ([Piece.text ", "].intercalate
        ((members set).map fun r => [.text r.name])) =
          (", ".intercalate ((members set).map Register.name)).toList.map .char := by
      rw [signs_intercalate, String.toList_intercalate,
        intercalate_hom (f := List.map Sign.char) rfl fun _ _ => List.map_append]
      simp only [List.map_map, Function.comp_def, signs_text]
    cases user <;> simp [pieces, fused, signs_text_cons, signs_append, signs_nil, names]
  | statusFields saved fields =>
    have letters (l : List Char) : signs (l.map fun c => .text (String.singleton c)) =
        l.map .char := by
      induction l with
      | nil => rfl
      | cons c l ih => simp [signs_text_cons, ih]
    simp [pieces, fused, signs_text_cons, letters, signs_nil]
  | _ => rfl

end cut

theorem Operand.signs_pieces_offset (o : Operand) :
    signs (o.pieces Offset.pieces) = signs o.fused := o.signs_pieces Offset.signs_pieces

/-- The operands of a slot come with a comma between them, whatever makes one piece. -/
theorem Slot.signs_pieces (loc : Addr) (w : Word) (s : Slot) :
    signs (s.pieces (s.operands loc w)) =
      signs ([Piece.text ", "].intercalate ((s.operands loc w).map Operand.fused)) := by
  have joined (l : List Operand) :
      signs (Piece.fuse ([Piece.text ", "].intercalate (l.map (Operand.pieces Offset.pieces)))) =
        signs ([Piece.text ", "].intercalate (l.map Operand.fused)) := by
    rw [signs_fuse, signs_intercalate, signs_intercalate, List.map_map, List.map_map]
    congr 2
    exact funext Operand.signs_pieces_offset
  have alone {cut : Offset → List Piece} (whole : ∀ o, signs (cut o) = signs [.text o.text])
      (o : Operand) : signs ([o].flatMap (Operand.pieces cut)) =
        signs ([Piece.text ", "].intercalate ([o].map Operand.fused)) := by
    rw [List.flatMap_singleton, List.map_singleton, List.intercalate_singleton,
      o.signs_pieces whole]
  cases s with
  | atRn | coprocessorOperation | coprocessorMove => exact joined _
  | coprocessorTransfer =>
    simp [pieces, operands, signs_append, signs_fuse, signs_text_cons,
      Operand.signs_pieces Offset.signs_pieces, signs_nil]
  | splitAddress => exact alone (fun _ => rfl) _
  | _ => exact alone Offset.signs_pieces _

namespace Entry

theorem ofWord_mem_or_eq (w : Word) : ofWord w ∈ table ∨ ofWord w = fallback := by
  unfold ofWord
  cases h : table.find? fun e => e.Matches w with
  | none => exact .inr rfl
  | some e => exact .inl (List.mem_of_find?_eq_some h)

theorem slots_ne_nil (w : Word) : (ofWord w).slots ≠ [] := by
  have all : ∀ e ∈ table, e.slots ≠ [] := by decide +kernel
  rcases ofWord_mem_or_eq w with h | h
  · exact all _ h
  · rw [h]
    decide

end Entry

/-! ### Lines -/

theorem Slot.operands_ne_nil (loc : Addr) (w : Word) (s : Slot) : s.operands loc w ≠ [] := by
  cases s <;> exact List.cons_ne_nil _ _

def Entry.mnemonic (e : Entry) (w : Word) : String :=
  e.name ++ e.condition w ++ String.join (e.suffixes.map (Suffix.text w))

theorem Suffix.signs_pieces (w : Word) (s : Suffix) :
    signs (s.pieces w) = (s.text w).toList.map .char := by
  have mark (t : String) : signs (if t = "" then [] else [.text t]) = t.toList.map .char := by
    split
    · next e =>
      rw [e]
      rfl
    · exact signs_text t
  cases s with
  | setFlags | comparePc | long => exact mark _
  | _ => exact signs_text _

theorem Suffix.isText_pieces (w : Word) (s : Suffix) : ∀ p ∈ s.pieces w, p.IsText := by
  cases s <;> simp [pieces, IsText]

theorem Entry.isText_opening (e : Entry) (w : Word) : ∀ p ∈ e.opening w, p.IsText := by
  refine List.forall_mem_cons.2 ⟨trivial, List.forall_mem_append.2 ⟨?_, ?_⟩⟩
  · split <;> simp [IsText]
  · intro p hp
    obtain ⟨s, -, hp⟩ := List.mem_flatMap.1 hp
    exact s.isText_pieces w p hp

theorem Entry.signs_opening (e : Entry) (w : Word) :
    signs (e.opening w) = (e.mnemonic w).toList.map .char := by
  have condition : signs (if e.Unconditional ∨ e.Undefined then [] else [.text (e.condition w)]) =
      (e.condition w).toList.map .char := by
    unfold Entry.condition
    split
    · rfl
    · exact signs_text _
  have glued (l : List Suffix) : signs (l.flatMap (Suffix.pieces w)) =
      (String.join (l.map (Suffix.text w))).toList.map .char := by
    induction l with
    | nil => rfl
    | cons s l ih =>
      rw [List.flatMap_cons, List.map_cons, String.join_cons, signs_append, ih, s.signs_pieces,
        String.toList_append, List.map_append]
  rw [opening, mnemonic, signs_text_cons, signs_append, condition, glued]
  simp only [String.toList_append, List.map_append, List.append_assoc]

def Entry.operands (e : Entry) (loc : Addr) (w : Word) : List Operand :=
  e.slots.flatMap (Slot.operands loc w)

namespace Instruction

def mnemonic (i : Instruction) : String := i.entry.mnemonic i.word

def operands (i : Instruction) : List Operand := i.entry.operands i.location i.word

def fusedOperands (i : Instruction) : List Piece :=
  [Piece.text ", "].intercalate (i.operands.map Operand.fused)

end Instruction

theorem Operand.signs_intercalate_fused (o : Operand) (l : List Operand) :
    signs ([Piece.text ", "].intercalate ((o :: l).map fused)) =
      signs o.fused ++ l.flatMap fun p => signs (.text ", " :: p.fused) := by
  rw [List.map_cons, intercalate_cons, signs_append, List.flatMap_map]
  congr 1
  induction l with
  | nil => rfl
  | cons p l ih =>
    rw [List.flatMap_cons, List.flatMap_cons, signs_append, ih]
    rfl

/-- Slots behind a first one have a comma in front of every operand. -/
theorem Slot.signs_listed_comma (loc : Addr) (w : Word) (l : List Slot) :
    signs (Slot.listed loc w ", " l) =
      (l.flatMap (Slot.operands loc w)).flatMap fun o => signs (.text ", " :: o.fused) := by
  induction l with
  | nil => rfl
  | cons s l ih =>
    obtain ⟨o, os, e⟩ := List.exists_cons_of_ne_nil (s.operands_ne_nil loc w)
    rw [listed, signs_text_cons, signs_append, ih, s.signs_pieces, List.flatMap_cons,
      List.flatMap_append, e, Operand.signs_intercalate_fused, List.flatMap_cons, signs_text_cons]
    simp only [List.append_assoc]

theorem Slot.signs_listed (loc : Addr) (w : Word) (separator : String) {l : List Slot}
    (h : l ≠ []) :
    signs (Slot.listed loc w separator l) = separator.toList.map .char ++
      signs ([Piece.text ", "].intercalate
        ((l.flatMap (Slot.operands loc w)).map Operand.fused)) := by
  obtain ⟨s, l, rfl⟩ := List.exists_cons_of_ne_nil h
  obtain ⟨o, os, e⟩ := List.exists_cons_of_ne_nil (s.operands_ne_nil loc w)
  rw [listed, signs_text_cons, signs_append, signs_listed_comma, s.signs_pieces, List.flatMap_cons,
    e, List.cons_append, Operand.signs_intercalate_fused, Operand.signs_intercalate_fused,
    List.flatMap_append]
  simp only [List.append_assoc]

namespace Instruction

def operandSigns (i : Instruction) : List Sign := signs i.fusedOperands

/-- The pieces of a line show the mnemonic, a tab and the operands. -/
theorem signs_body (loc : Addr) (w : Word) (raw : Bool) :
    signs ((decode loc w).body raw) =
      (if raw then (Hex.padded 8 w.toNat ++ "\t").toList.map .char else []) ++
        ((decode loc w).mnemonic.toList.map .char ++
          .char '\t' :: (decode loc w).operandSigns) := by
  have column : signs (if raw then [.text (Hex.padded 8 w.toNat ++ "\t")] else []) =
      if raw then (Hex.padded 8 w.toNat ++ "\t").toList.map .char else [] := by
    cases raw with
    | false => rfl
    | true => exact signs_text _
  change signs ((if raw then [.text (Hex.padded 8 w.toNat ++ "\t")] else []) ++
    ((Entry.ofWord w).opening w ++ Slot.listed loc w "\t" (Entry.ofWord w).slots)) = _
  rw [signs_append, signs_append, Entry.signs_opening,
    Slot.signs_listed loc w _ (Entry.slots_ne_nil w), column]
  rfl

theorem render_body (f : Addr → String) (loc : Addr) (w : Word) (raw : Bool) :
    render f ((decode loc w).body raw) =
      (if raw then Hex.padded 8 w.toNat ++ "\t" else "") ++ (decode loc w).mnemonic ++ "\t" ++
        render f (decode loc w).fusedOperands := by
  refine render_congr (m := .text _ :: (decode loc w).fusedOperands) ?_ f
  rw [signs_body, operandSigns]
  cases raw <;> simp [signs_text_cons]

theorem signs_pieces (loc : Addr) (w : Word) (raw : Bool) :
    signs ((decode loc w).pieces raw) = signs ((decode loc w).body raw) ++ [.char '\n'] := by
  rw [pieces, signs_append]
  rfl

end Instruction

end Disarm
