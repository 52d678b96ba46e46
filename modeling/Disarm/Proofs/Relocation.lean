import Disarm.Proofs.LineText
/-!
Moving an instruction. A word that stands somewhere else has the same line, with every address
moved by the same distance. Main statement: the record of a word at one address is its record at any
other, displaced.
-/

namespace Disarm

def Memory.displace (d : Addr) : Memory → Memory
  | .literal a => .literal (a + d)
  | .preIndexed base offset writeback => .preIndexed base offset writeback
  | .postIndexed base offset => .postIndexed base offset
  | .unindexed base option => .unindexed base option

def Operand.displace (d : Addr) : Operand → Operand
  | .memory m => .memory (m.displace d)
  | .target a => .target (a + d)
  | o => o

def Piece.displace (d : Addr) : Piece → Piece
  | .text t => .text t
  | .address a => .address (a + d)

/-- The call after a move by a distance: the read and the addresses move along. -/
def Call.displace (d : Addr) : Call → Call
  | .read a => .read (a + d)
  | .address a => .address (a + d)
  | .text t => .text t

theorem Piece.call_displace (d : Addr) (p : Piece) : (p.displace d).call = p.call.displace d := by
  cases p <;> rfl

variable (loc d : Addr) (w : Word)

namespace Memory

theorem literalTarget_add (up : Bool) (n : Word) :
    literalTarget (loc + d) up n = literalTarget loc up n + d := by
  cases up with
  | true =>
    change loc + d + 8 + n = loc + 8 + n + d
    ac_rfl
  | false =>
    change loc + d + 8 - n = loc + 8 - n + d
    rw [BitVec.sub_eq_add_neg, BitVec.sub_eq_add_neg]
    ac_rfl

theorem displace_withOffset (o : Offset) : (withOffset w o).displace d = withOffset w o := by
  unfold withOffset
  split <;> rfl

theorem constant_add (n : Word) : constant (loc + d) w n = (constant loc w n).displace d := by
  unfold constant
  split
  · rw [literalTarget_add]
    rfl
  · exact (displace_withOffset d w _).symm

theorem ofTransfer_add : ofTransfer (loc + d) w = (ofTransfer loc w).displace d := by
  unfold ofTransfer
  split
  · exact (displace_withOffset d w _).symm
  · exact constant_add loc d w _

theorem ofHalfwordTransfer_add :
    ofHalfwordTransfer (loc + d) w = (ofHalfwordTransfer loc w).displace d := by
  unfold ofHalfwordTransfer
  split
  · exact constant_add loc d w _
  · exact (displace_withOffset d w _).symm

theorem ofCoprocessorTransfer_add :
    ofCoprocessorTransfer (loc + d) w = (ofCoprocessorTransfer loc w).displace d := by
  unfold ofCoprocessorTransfer
  split
  · rfl
  · exact constant_add loc d w _

end Memory

namespace Operand

theorem jumpTarget_add : jumpTarget (loc + d) w = jumpTarget loc w + d := by
  unfold jumpTarget
  ac_rfl

theorem displace_flexible : (flexible w).displace d = flexible w := by
  unfold flexible
  split <;> rfl

end Operand

open Operand in
/-- The operands of a slot move with the word. -/
theorem Slot.operands_add (s : Slot) :
    s.operands (loc + d) w = (s.operands loc w).map (Operand.displace d) := by
  cases s with
  | address => exact congrArg (fun m => [Operand.memory m]) (Memory.ofTransfer_add loc d w)
  | splitAddress =>
    exact congrArg (fun m => [Operand.memory m]) (Memory.ofHalfwordTransfer_add loc d w)
  | coprocessorTransfer =>
    exact congrArg (fun m => [Operand.coprocessorRegister (w.field 12 4), .memory m])
      (Memory.ofCoprocessorTransfer_add loc d w)
  | coprocessorAddress =>
    exact congrArg (fun m => [Operand.memory m]) (Memory.ofCoprocessorTransfer_add loc d w)
  | branch => exact congrArg (fun a => [Operand.target a]) (Operand.jumpTarget_add loc d w)
  | exchangeBranch =>
    have target (h : Addr) : jumpTarget (loc + d) w + h = jumpTarget loc w + h + d := by
      rw [jumpTarget_add]
      ac_rfl
    exact congrArg (fun a => [Operand.target a]) (target _)
  | flexible => exact congrArg (fun o => [o]) (Operand.displace_flexible d w).symm
  | fm =>
    simp only [operands, List.map_cons, List.map_nil]
    split <;> rfl
  | _ => rfl

/-! ### Pieces -/

theorem Piece.fuse_displace (l : List Piece) :
    fuse (l.map (displace d)) = (fuse l).map (displace d) := by
  induction l with
  | nil => rfl
  | cons p l ih =>
    cases p with
    | text s =>
      rw [List.map_cons, displace, fuse, fuse, ih]
      cases fuse l with
      | nil => rfl
      | cons q m => cases q <;> rfl
    | address a =>
      rw [List.map_cons, displace, fuse, fuse, ih]
      rfl

theorem Piece.map_displace {l : List Piece} (h : ∀ p ∈ l, p.IsText) : l.map (displace d) = l := by
  refine (List.map_congr_left fun p hp => ?_).trans (List.map_id l)
  cases p with
  | text t => rfl
  | address a => exact (h _ hp).elim

section cut

variable {cut : Offset → List Piece} (still : ∀ o, (cut o).map (Piece.displace d) = cut o)
include still

theorem Memory.pieces_displace (m : Memory) :
    (m.displace d).pieces cut = (m.pieces cut).map (Piece.displace d) := by
  cases m with
  | literal a => rfl
  | unindexed base option => rfl
  | postIndexed base offset => simp [displace, pieces, still, Piece.displace]
  | preIndexed base offset writeback =>
    by_cases omitted : offset.Omitted <;> cases writeback <;>
      simp [displace, pieces, omitted, still, Piece.displace]

theorem Operand.pieces_displace (o : Operand) :
    (o.displace d).pieces cut = (o.pieces cut).map (Piece.displace d) := by
  cases o with
  | memory m => exact m.pieces_displace d still
  | base r writeback => cases writeback <;> rfl
  | rotated r bytes =>
    simp only [displace, pieces, List.map_cons, apply_ite (List.map _)]
    rfl
  | shifted r shift =>
    exact congrArg (Piece.text r.name :: ·) (Piece.map_displace d shift.isText_pieces).symm
  | registers set user =>
    have names : ([Piece.text ", "].intercalate
        ((members set).map fun r => [.text r.name])).map (Piece.displace d) =
          [Piece.text ", "].intercalate ((members set).map fun r => [.text r.name]) := by
      rw [intercalate_hom (f := List.map (Piece.displace d)) rfl fun _ _ => List.map_append,
        List.map_map]
      rfl
    cases user <;> simp [displace, pieces, names, Piece.displace]
  | statusFields saved fields => simp [displace, pieces, Piece.displace]
  | _ => rfl

theorem Operand.flatMap_pieces_displace (l : List Operand) :
    (l.map (Operand.displace d)).flatMap (Operand.pieces cut) =
      (l.flatMap (Operand.pieces cut)).map (Piece.displace d) := by
  rw [List.flatMap_map, List.map_flatMap]
  exact congrArg (l.flatMap ·) (funext fun o => o.pieces_displace d still)

end cut

theorem Slot.pieces_displace (l : List Operand) (s : Slot) :
    s.pieces (l.map (Operand.displace d)) = (s.pieces l).map (Piece.displace d) := by
  have still (o : Offset) : o.pieces.map (Piece.displace d) = o.pieces :=
    Piece.map_displace d o.isText_pieces
  have joined : Piece.fuse ([Piece.text ", "].intercalate
      ((l.map (Operand.displace d)).map (Operand.pieces Offset.pieces))) =
        (Piece.fuse ([Piece.text ", "].intercalate (l.map (Operand.pieces Offset.pieces)))).map
          (Piece.displace d) := by
    have moved : Operand.pieces Offset.pieces ∘ Operand.displace d =
        List.map (Piece.displace d) ∘ Operand.pieces Offset.pieces :=
      funext fun o => o.pieces_displace d still
    rw [List.map_map, moved, ← List.map_map, ← Piece.fuse_displace,
      intercalate_hom (f := List.map (Piece.displace d)) rfl fun _ _ => List.map_append]
    rfl
  have apart := Operand.flatMap_pieces_displace d still
  cases s with
  | atRn | coprocessorOperation | coprocessorMove => exact joined
  | coprocessorTransfer =>
    simp only [pieces, List.map_append, ← apart, ← List.map_take, ← List.map_drop,
      ← Piece.fuse_displace]
    rfl
  | splitAddress => exact Operand.flatMap_pieces_displace d (fun _ => rfl) l
  | _ => exact apart l

/-- The operands of a word move with it, and their separators stay as they are. -/
theorem Slot.listed_add (separator : String) (l : List Slot) :
    Slot.listed (loc + d) w separator l =
      (Slot.listed loc w separator l).map (Piece.displace d) := by
  induction l generalizing separator with
  | nil => rfl
  | cons s l ih =>
    rw [listed, listed, ih, operands_add, pieces_displace, List.map_cons, List.map_append]
    rfl

theorem Instruction.pieces_add (raw : Bool) :
    (decode (loc + d) w).pieces raw = ((decode loc w).pieces raw).map (Piece.displace d) := by
  have column : ∀ p ∈ (if raw then [Piece.text (Hex.padded 8 w.toNat ++ "\t")] else []),
      p.IsText := by
    cases raw <;> simp [Piece.IsText]
  have opening := Piece.map_displace d ((Entry.ofWord w).isText_opening w)
  have listed := Slot.listed_add loc d w "\t" (Entry.ofWord w).slots
  simp only [pieces, body, decode, List.map_append, listed, opening, Piece.map_displace d column]
  rfl

theorem Recorder.trace_add (raw : Bool) :
    trace (loc + d) w raw = (trace loc w raw).map (Call.displace d) := by
  rw [trace_eq, trace_eq, Instruction.pieces_add, List.map_cons, List.map_map, List.map_map]
  congr 2
  exact funext (Piece.call_displace d)

/-- The record of a word at one address is the record at another, displaced by their difference: the
same texts, and every address moved. -/
theorem Recorder.trace_eq_displaced (loc₁ loc₂ : Addr) (w : Word) (raw : Bool) :
    trace loc₂ w raw = (trace loc₁ w raw).map (Call.displace (loc₂ - loc₁)) := by
  have move : loc₁ + (loc₂ - loc₁) = loc₂ := by
    rw [BitVec.add_comm]
    exact BitVec.sub_add_cancel loc₂ loc₁
  rw [← trace_add, move]

end Disarm
