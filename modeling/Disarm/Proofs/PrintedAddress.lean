import Disarm.Proofs.LineShape
/-!
The address of a line. Branches and transfers relative to the program counter leave one address to
the host, as the last thing before the line end; other lines hold text only. Main statement: which
words have an address, and how far it lies from the program counter.
-/

namespace Disarm

/-! ### Distances -/

namespace Word

/-- The base is the program counter, the offset is applied first and the base stays as it is. -/
def CounterBased (w : Word) : Prop :=
  w.field 16 4 = Register.pc ∧ w.bit 24 = true ∧ w.bit 21 = false

instance (w : Word) : Decidable w.CounterBased := inferInstanceAs (Decidable (_ ∧ _))

def jump (w : Word) : Int := 4 * (w.field 0 24).toInt

def signed (w : Word) (n : Nat) : Int := if w.bit 23 then n else -n

/-- How far the address in a word's line lies from the program counter, if there is one. -/
def distance? (w : Word) : Option Int :=
  let e := Entry.ofWord w
  if e.name = "b" ∨ e.name = "bl" then some w.jump
  else if e.name = "blx" ∧ e.Unconditional then some (w.jump + if w.bit 24 then 2 else 0)
  else if ¬w.CounterBased then none
  else if .address ∈ e.slots ∧ w.bit 25 = false then some (w.signed (w.field 0 12).toNat)
  else if .splitAddress ∈ e.slots ∧ w.bit 22 = true then
    some (w.signed (16 * (w.field 8 4).toNat + (w.field 0 4).toNat))
  else if .coprocessorAddress ∈ e.slots ∨ .coprocessorTransfer ∈ e.slots then
    some (w.signed (4 * (w.field 0 8).toNat))
  else none

end Word

/-- The address at a distance from the program counter, which is two words ahead. -/
def Addr.fromCounter (loc : Addr) (d : Int) : Addr := .ofInt 32 (loc.toNat + 8 + d)

theorem Addr.fromCounter_eq (loc : Addr) (d : Int) : loc.fromCounter d = loc + 8 + .ofInt 32 d := by
  rw [fromCounter, BitVec.ofInt_add, BitVec.ofInt_add, BitVec.ofInt_natCast, BitVec.ofNat_toNat,
    BitVec.setWidth_eq]
  rfl

namespace Operand

theorem jumpTarget_eq (loc : Addr) (w : Word) : jumpTarget loc w = loc.fromCounter w.jump := by
  rw [Addr.fromCounter_eq, Word.jump, BitVec.ofInt_mul]
  rfl

/-- The halfword of a branch that changes the instruction set is part of its distance. -/
theorem exchangeTarget_eq (loc : Addr) (w : Word) :
    jumpTarget loc w + (if w.bit 24 then 2 else 0) =
      loc.fromCounter (w.jump + if w.bit 24 then 2 else 0) := by
  have half : BitVec.ofInt 32 (if w.bit 24 then 2 else 0) = if w.bit 24 then 2 else 0 := by
    cases w.bit 24 <;> rfl
  rw [jumpTarget_eq, Addr.fromCounter_eq, Addr.fromCounter_eq, BitVec.ofInt_add, half,
    BitVec.add_assoc]

end Operand

namespace Memory

theorem literalTarget_eq (loc : Addr) (w : Word) {m : Word} {n : Nat} (h : m = .ofNat 32 n) :
    literalTarget loc (up w) m = loc.fromCounter (w.signed n) := by
  rw [Addr.fromCounter_eq, literalTarget, Word.signed, h]
  split
  · rw [BitVec.ofInt_natCast]
  · rw [BitVec.ofInt_neg, BitVec.ofInt_natCast, BitVec.sub_eq_add_neg]

theorem address?_withOffset (w : Word) (o : Offset) : (withOffset w o).address? = none := by
  unfold withOffset
  split <;> rfl

/-- A constant offset leaves an address to the host just when the base is the program counter. -/
theorem address?_constant (loc : Addr) (w : Word) {m : Word} {n : Nat} (h : m = .ofNat 32 n) :
    (constant loc w m).address? =
      if w.CounterBased then some (loc.fromCounter (w.signed n)) else none := by
  change (if w.CounterBased then literal _ else withOffset w _).address? = _
  by_cases hw : w.CounterBased
  · rw [if_pos hw, if_pos hw, ← literalTarget_eq loc w h]
    rfl
  · rw [if_neg hw, if_neg hw]
    exact address?_withOffset w _

theorem split_eq (high low : BitVec 4) :
    (high ++ low).setWidth 32 = BitVec.ofNat 32 (16 * high.toNat + low.toNat) := by
  revert high low
  decide +kernel

theorem words_eq (n : BitVec 8) : 4 * n.setWidth 32 = BitVec.ofNat 32 (4 * n.toNat) := by
  rw [BitVec.ofNat_mul, BitVec.ofNat_toNat]
  rfl

theorem address?_ofTransfer (loc : Addr) (w : Word) :
    (ofTransfer loc w).address? = if w.CounterBased ∧ w.bit 25 = false then
      some (loc.fromCounter (w.signed (w.field 0 12).toNat)) else none := by
  unfold ofTransfer
  cases w.bit 25 with
  | true =>
    rw [if_pos rfl, if_neg fun h => Bool.false_ne_true h.2.symm]
    exact address?_withOffset w _
  | false =>
    simp only [Bool.false_eq_true, if_false, and_true]
    exact address?_constant loc w (BitVec.ofNat_toNat 32 _).symm

theorem address?_ofHalfwordTransfer (loc : Addr) (w : Word) :
    (ofHalfwordTransfer loc w).address? = if w.CounterBased ∧ w.bit 22 = true then
      some (loc.fromCounter (w.signed (16 * (w.field 8 4).toNat + (w.field 0 4).toNat)))
        else none := by
  unfold ofHalfwordTransfer
  cases w.bit 22 with
  | true =>
    simp only [if_true, and_true]
    exact address?_constant loc w (split_eq _ _)
  | false =>
    rw [if_neg Bool.false_ne_true, if_neg fun h => Bool.false_ne_true h.2]
    exact address?_withOffset w _

theorem address?_ofCoprocessorTransfer (loc : Addr) (w : Word) :
    (ofCoprocessorTransfer loc w).address? = if w.CounterBased then
      some (loc.fromCounter (w.signed (4 * (w.field 0 8).toNat))) else none := by
  unfold ofCoprocessorTransfer
  split
  · next h =>
    have other : ¬w.CounterBased := fun hw => absurd (h.1.symm.trans hw.2.1) (by decide)
    rw [if_neg other]
    rfl
  · exact address?_constant loc w (words_eq _)

end Memory

/-! ### Slots -/

namespace Slot

def address? (loc : Addr) (w : Word) : Slot → Option Addr
  | .address => (Memory.ofTransfer loc w).address?
  | .splitAddress => (Memory.ofHalfwordTransfer loc w).address?
  | .coprocessorTransfer | .coprocessorAddress => (Memory.ofCoprocessorTransfer loc w).address?
  | .branch => some (Operand.jumpTarget loc w)
  | .exchangeBranch => some (Operand.jumpTarget loc w + if w.bit 24 then 2 else 0)
  | _ => none

/-- Slots that may leave an address to the host. -/
def Open (s : Slot) : Prop :=
  s ∈ [address, splitAddress, branch, exchangeBranch, coprocessorTransfer, coprocessorAddress]

instance (s : Slot) : Decidable s.Open := inferInstanceAs (Decidable (_ ∈ _))

theorem address?_of_not_open {s : Slot} (h : ¬s.Open) (loc : Addr) (w : Word) :
    s.address? loc w = none := by
  cases s with
  | address | splitAddress | branch | exchangeBranch | coprocessorTransfer | coprocessorAddress =>
    exact absurd (by decide) h
  | _ => rfl

end Slot

/-! ### Entries -/

namespace Entry

/-- An address comes last, and the branches are those with certain names. -/
def Orderly (e : Entry) : Prop :=
  (∀ s ∈ e.slots.dropLast, ¬s.Open) ∧
    (.branch ∈ e.slots ↔ e.name = "b" ∨ e.name = "bl") ∧
    (.exchangeBranch ∈ e.slots ↔ e.name = "blx" ∧ e.Unconditional)

instance (e : Entry) : Decidable e.Orderly := inferInstanceAs (Decidable (_ ∧ _))

theorem orderly_ofWord (w : Word) : (ofWord w).Orderly := by
  have all : ∀ e ∈ table, e.Orderly := by decide +kernel
  rcases ofWord_mem_or_eq w with h | h
  · exact all _ h
  · rw [h]
    decide

theorem slots_eq_concat (w : Word) :
    ∃ l s, (ofWord w).slots = l ++ [s] ∧ ∀ t ∈ l, ¬t.Open := by
  have last := List.dropLast_append_getLast (slots_ne_nil w)
  exact ⟨_, _, last.symm, (orderly_ofWord w).1⟩

theorem mem_slots_iff {w : Word} {l : List Slot} {s t : Slot} (e : (ofWord w).slots = l ++ [s])
    (hl : ∀ t ∈ l, ¬t.Open) (ht : t.Open) : t ∈ (ofWord w).slots ↔ s = t := by
  rw [e, List.mem_append, List.mem_singleton]
  exact ⟨fun h => (h.resolve_left fun ho => hl t ho ht).symm, fun h => .inr h.symm⟩

/-- The distance in a word is that of the address its last slot leaves to the host. -/
theorem distance?_eq {w : Word} {l : List Slot} {s : Slot} (e : (ofWord w).slots = l ++ [s])
    (hl : ∀ t ∈ l, ¬t.Open) (loc : Addr) :
    w.distance?.map loc.fromCounter = s.address? loc w := by
  have mem (t : Slot) (ht : t.Open) : t ∈ (ofWord w).slots ↔ s = t := mem_slots_iff e hl ht
  obtain ⟨-, branch, exchange⟩ := orderly_ofWord w
  simp only [Word.distance?, ← branch, ← exchange, mem .branch (by decide),
    mem .exchangeBranch (by decide), mem .address (by decide), mem .splitAddress (by decide),
    mem .coprocessorAddress (by decide), mem .coprocessorTransfer (by decide)]
  cases s with
  | branch => simp [Slot.address?, Operand.jumpTarget_eq]
  | exchangeBranch => exact congrArg some (Operand.exchangeTarget_eq loc w).symm
  | address =>
    by_cases counter : w.CounterBased <;>
      simp [Slot.address?, Memory.address?_ofTransfer, counter, apply_ite]
  | splitAddress =>
    by_cases counter : w.CounterBased <;>
      simp [Slot.address?, Memory.address?_ofHalfwordTransfer, counter, apply_ite]
  | coprocessorTransfer => simp [Slot.address?, Memory.address?_ofCoprocessorTransfer]
  | coprocessorAddress => simp [Slot.address?, Memory.address?_ofCoprocessorTransfer]
  | _ => simp [Slot.address?]

end Entry

/-! ### Lines -/

/-- Pieces of text, with an address at the end or without. -/
def Piece.EndsWith (a : Option Addr) (l : List Piece) : Prop :=
  ∃ texts : List String, l = texts.map .text ++ a.toList.map .address

theorem Piece.EndsWith.append {l m : List Piece} {a : Option Addr} (hl : EndsWith none l)
    (hm : EndsWith a m) : EndsWith a (l ++ m) := by
  obtain ⟨s, rfl⟩ := hl
  obtain ⟨t, rfl⟩ := hm
  refine ⟨s ++ t, ?_⟩
  simp only [Option.toList_none, List.map_nil, List.append_nil, List.map_append, List.append_assoc]

theorem Piece.endsWith_text (t : String) : EndsWith none [.text t] := ⟨[t], rfl⟩

theorem Piece.endsWith_of_isText {l : List Piece} (h : ∀ p ∈ l, p.IsText) : EndsWith none l := by
  induction l with
  | nil => exact ⟨[], rfl⟩
  | cons p l ih =>
    obtain ⟨first, rest⟩ := List.forall_mem_cons.1 h
    cases p with
    | text t => exact (endsWith_text t).append (ih rest)
    | address a => exact first.elim

section cut

variable {cut : Offset → List Piece} (texts : ∀ o, ∀ p ∈ cut o, p.IsText)
include texts

theorem Memory.endsWith (m : Memory) : Piece.EndsWith m.address? (m.pieces cut) := by
  cases m with
  | literal a => exact ⟨[], rfl⟩
  | unindexed base option => exact Piece.endsWith_text _
  | postIndexed base offset =>
    exact (Piece.endsWith_text _).append (Piece.endsWith_of_isText (texts offset))
  | preIndexed base offset writeback =>
    refine Piece.endsWith_of_isText (List.forall_mem_cons.2 ⟨trivial, ?_⟩)
    refine List.forall_mem_append.2 ⟨?_, List.forall_mem_cons.2 ⟨trivial, ?_⟩⟩
    · split
      · exact fun p hp => absurd hp List.not_mem_nil
      · exact List.forall_mem_cons.2 ⟨trivial, texts offset⟩
    · cases writeback <;> simp [Piece.IsText]

theorem Operand.endsWith (o : Operand) : Piece.EndsWith o.address? (o.pieces cut) := by
  cases o with
  | memory m => exact m.endsWith texts
  | target a => exact ⟨[], rfl⟩
  | base r writeback =>
    cases writeback
    · exact Piece.endsWith_text _
    · exact (Piece.endsWith_text _).append (Piece.endsWith_text _)
  | rotated r bytes =>
    refine Piece.endsWith_of_isText (List.forall_mem_cons.2 ⟨trivial, ?_⟩)
    split <;> simp [Piece.IsText]
  | shifted r shift =>
    exact (Piece.endsWith_text _).append (Piece.endsWith_of_isText shift.isText_pieces)
  | registers set user =>
    refine Piece.endsWith_of_isText (List.forall_mem_cons.2 ⟨trivial, ?_⟩)
    refine List.forall_mem_append.2 ⟨Text.forall_mem_intercalate ?_ ?_,
      List.forall_mem_cons.2 ⟨trivial, ?_⟩⟩
    · simp [Piece.IsText]
    · simp [Piece.IsText]
    · cases user <;> simp [Piece.IsText]
  | statusFields saved fields =>
    refine Piece.endsWith_of_isText ?_
    simp [pieces, Piece.IsText]
  | _ => exact Piece.endsWith_text _

end cut

theorem Operand.isText_pieces {o : Operand} (h : o.address? = none) :
    ∀ p ∈ o.pieces Offset.pieces, p.IsText := by
  obtain ⟨texts, e⟩ := o.endsWith Offset.isText_pieces
  rw [e, h]
  simp [Piece.IsText]

theorem Operand.endsWith_fuse {l : List Operand} (h : ∀ o ∈ l, o.address? = none) :
    Piece.EndsWith none
      (Piece.fuse ([Piece.text ", "].intercalate (l.map (Operand.pieces Offset.pieces)))) := by
  refine Piece.endsWith_of_isText (Piece.isText_fuse (Text.forall_mem_intercalate ?_ ?_))
  · simp [Piece.IsText]
  · intro pieces hp
    obtain ⟨o, ho, rfl⟩ := List.mem_map.1 hp
    exact isText_pieces (h o ho)

theorem Slot.endsWith (loc : Addr) (w : Word) (s : Slot) :
    Piece.EndsWith (s.address? loc w) (s.pieces (s.operands loc w)) := by
  have alone {a : Option Addr} (o : Operand) (h : o.address? = a) :
      Piece.EndsWith a ([o].flatMap (Operand.pieces Offset.pieces)) := by
    rw [List.flatMap_singleton, ← h]
    exact o.endsWith Offset.isText_pieces
  cases s with
  | atRn | coprocessorOperation | coprocessorMove =>
    exact Operand.endsWith_fuse (by simp [operands, Operand.address?, Memory.address?])
  | coprocessorTransfer =>
    refine (Piece.endsWith_of_isText (Piece.isText_fuse ?_)).append (alone (.memory _) rfl)
    simp [operands, Operand.pieces, Piece.IsText]
  | splitAddress =>
    change Piece.EndsWith _ ([Operand.memory _].flatMap _)
    rw [List.flatMap_singleton]
    exact (Operand.memory _).endsWith (by simp [Piece.IsText])
  | flexible =>
    have none : (Operand.flexible w).address? = none := by
      unfold Operand.flexible
      split <;> rfl
    exact alone _ none
  | fm =>
    have none : (if w.bit 3 then Operand.floatConstant (w.field 0 3) else
        .float (w.field 0 3)).address? = none := by
      split <;> rfl
    exact alone _ none
  | _ => exact alone _ rfl

/-- A list of slots of which the last alone may have an address ends with it. -/
theorem Slot.endsWith_listed (loc : Addr) (w : Word) (separator : String) {l : List Slot}
    (hl : ∀ t ∈ l, ¬t.Open) (s : Slot) :
    Piece.EndsWith (s.address? loc w) (Slot.listed loc w separator (l ++ [s])) := by
  induction l generalizing separator with
  | nil =>
    have last : Slot.listed loc w separator [s] =
        .text separator :: s.pieces (s.operands loc w) :=
      congrArg (Piece.text separator :: ·) (List.append_nil _)
    rw [List.nil_append, last]
    exact (Piece.endsWith_text _).append (s.endsWith loc w)
  | cons t l ih =>
    obtain ⟨first, rest⟩ := List.forall_mem_cons.1 hl
    have head := t.endsWith loc w
    rw [address?_of_not_open first] at head
    exact ((Piece.endsWith_text _).append head).append (ih ", " rest)

theorem Instruction.endsWith_body (loc : Addr) (w : Word) (raw : Bool) :
    Piece.EndsWith (w.distance?.map loc.fromCounter) ((decode loc w).body raw) := by
  obtain ⟨l, s, e, hl⟩ := Entry.slots_eq_concat w
  have column : Piece.EndsWith none
      (if raw then [.text (Hex.padded 8 w.toNat ++ "\t")] else []) := by
    cases raw with
    | false => exact ⟨[], rfl⟩
    | true => exact Piece.endsWith_text _
  have opening := Piece.endsWith_of_isText ((Entry.ofWord w).isText_opening w)
  have listed := Slot.endsWith_listed loc w "\t" hl s
  rw [← e, ← Entry.distance?_eq e hl] at listed
  exact column.append (opening.append listed)

/-- The record of a word is a read, texts, the address at the word's distance from the program
counter if it has one, and the line end. -/
theorem Recorder.trace_eq_texts (loc : Addr) (w : Word) (raw : Bool) :
    ∃ texts : List String, trace loc w raw =
      .read loc :: (texts.map .text ++
        (w.distance?.map fun d => .address (.ofInt 32 (loc.toNat + 8 + d))).toList ++
          [.text "\n"]) := by
  obtain ⟨texts, e⟩ := Instruction.endsWith_body loc w raw
  have address : ((w.distance?.map loc.fromCounter).toList.map Piece.address).map Piece.call =
      (w.distance?.map fun d => .address (.ofInt 32 (loc.toNat + 8 + d))).toList := by
    cases w.distance? <;> rfl
  have text : (texts.map Piece.text).map Piece.call = texts.map .text := by
    rw [List.map_map]
    rfl
  refine ⟨texts, ?_⟩
  rw [trace_eq, Instruction.pieces, e, List.map_append, List.map_append, text, address]
  rfl

example : (0xe51f0004 : Word).distance? = some (-4) := by decide +kernel

end Disarm
