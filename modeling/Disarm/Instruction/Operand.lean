import Disarm.Instruction.Format
import Disarm.Instruction.Register
import Disarm.Text.Hex
import Disarm.Text.Piece
/-!
Operands as values. A slot reads its operands off a word and the word's address; an operand's text
is a function of the operand alone. Only literal addresses and branch targets depend on where the
word stands, and only they leave an address open in their text.
-/

namespace Disarm

/-- The four shift operations, in encoding order. -/
inductive ShiftKind where
  | lsl | lsr | asr | ror
deriving DecidableEq, Repr

namespace ShiftKind

def ofField (k : BitVec 2) : ShiftKind := (#v[lsl, lsr, asr, ror] : Vector ShiftKind 4).get k.toFin

def name : ShiftKind → String
  | lsl => "lsl"
  | lsr => "lsr"
  | asr => "asr"
  | ror => "ror"

end ShiftKind

inductive Shift where
  | none
  | constant (kind : ShiftKind) (amount : Nat)
  | extend
  | register (kind : ShiftKind) (r : Register)
deriving DecidableEq, Repr

namespace Shift

/-- The shift in bits 4 to 11. A constant of zero has three meanings: no shift for `lsl`, 32 places
for `lsr` and `asr`, and rotation through the carry for `ror`. -/
def ofWord (w : Word) : Shift :=
  let kind := ShiftKind.ofField (w.field 5 2)
  let amount := (w.field 7 5).toNat
  if w.bit 4 then .register kind (w.field 8 4)
  else if amount = 0 then
    match kind with
    | .lsl => .none
    | .ror => .extend
    | _ => .constant kind 32
  else .constant kind amount

def text : Shift → String
  | .none => ""
  | .constant kind amount => ", " ++ kind.name ++ " #" ++ toString amount
  | .extend => ", rrx"
  | .register kind r => ", " ++ kind.name ++ " " ++ r.name

def pieces : Shift → List Piece
  | .none => []
  | shift => [.text shift.text]

end Shift

/-- The distance between a base register and the memory that is meant. -/
inductive Offset where
  | immediate (up : Bool) (magnitude : Word)
  | register (up : Bool) (r : Register) (shift : Shift)
deriving DecidableEq, Repr

namespace Offset

def minus (up : Bool) : String := if up then "" else "-"

def text : Offset → String
  | .immediate up magnitude => "#" ++ minus up ++ "0x" ++ Hex.text magnitude.toNat
  | .register up r shift => minus up ++ r.name ++ shift.text

/-- A register comes after its sign, which may be empty. -/
def pieces : Offset → List Piece
  | .register up r shift => .text (minus up) :: .text r.name :: shift.pieces
  | offset => [.text offset.text]

/-- A constant of zero that is added is left out before the closing bracket. -/
def Omitted : Offset → Prop
  | .immediate up magnitude => up = true ∧ magnitude = 0
  | .register .. => False

instance : (o : Offset) → Decidable o.Omitted
  | .immediate .. => inferInstanceAs (Decidable (_ ∧ _))
  | .register .. => inferInstanceAs (Decidable False)

end Offset

inductive Memory where
  | literal (target : Addr)
  | preIndexed (base : Register) (offset : Offset) (writeback : Bool)
  | postIndexed (base : Register) (offset : Offset)
  | unindexed (base : Register) (option : BitVec 8)
deriving DecidableEq, Repr

namespace Memory

abbrev baseOf (w : Word) : Register := w.field 16 4

/-- Bit 23: the offset is added and not subtracted. -/
abbrev up (w : Word) : Bool := w.bit 23

/-- Bit 24: the offset is applied before the transfer. -/
abbrev pre (w : Word) : Bool := w.bit 24

/-- Bit 21: the base is changed. -/
abbrev writeback (w : Word) : Bool := w.bit 21

/-- The address a program-counter-relative transfer means. The counter is two words ahead. -/
def literalTarget (loc : Addr) (up : Bool) (magnitude : Word) : Addr :=
  if up then loc + 8 + magnitude else loc + 8 - magnitude

/-- Indexing by an offset, as bits 21 and 24 say. -/
def withOffset (w : Word) (offset : Offset) : Memory :=
  if pre w then .preIndexed (baseOf w) offset (writeback w) else .postIndexed (baseOf w) offset

/-- Indexing by a constant. With the program counter as base, the constant applied first and no
writeback, the address is known and is given in place of the calculation. -/
def constant (loc : Addr) (w : Word) (magnitude : Word) : Memory :=
  if baseOf w = Register.pc ∧ pre w = true ∧ writeback w = false then
    .literal (literalTarget loc (up w) magnitude)
  else withOffset w (.immediate (up w) magnitude)

/-- The address of a word or byte transfer: a twelve-bit constant, or a shifted register if bit 25
is set. -/
def ofTransfer (loc : Addr) (w : Word) : Memory :=
  if w.bit 25 then withOffset w (.register (up w) (w.field 0 4) (.ofWord w))
  else constant loc w ((w.field 0 12).setWidth 32)

/-- The address of a halfword transfer: a split eight-bit constant if bit 22 is set, or a plain
register. -/
def ofHalfwordTransfer (loc : Addr) (w : Word) : Memory :=
  if w.bit 22 then constant loc w ((w.field 8 4 ++ w.field 0 4).setWidth 32)
  else withOffset w (.register (up w) (w.field 0 4) .none)

/-- The address of a coprocessor transfer: a constant in words, or the base alone if the base is
neither advanced nor changed. -/
def ofCoprocessorTransfer (loc : Addr) (w : Word) : Memory :=
  if pre w = false ∧ writeback w = false then .unindexed (baseOf w) (w.field 0 8)
  else constant loc w (4 * (w.field 0 8).setWidth 32)

def pieces (cut : Offset → List Piece) : Memory → List Piece
  | .literal target => [.address target]
  | .preIndexed base offset writeback =>
    .text ("[" ++ base.name) :: ((if offset.Omitted then [] else .text ", " :: cut offset) ++
      .text "]" :: if writeback then [.text "!"] else [])
  | .postIndexed base offset => .text ("[" ++ base.name ++ "], ") :: cut offset
  | .unindexed base option =>
    [.text ("[" ++ base.name ++ "], \x7b" ++ toString option.toNat ++ "\x7d")]

end Memory

/-- One operand of an instruction. In a set of registers bit `i` stands for register `i`. -/
inductive Operand where
  | register (r : Register)
  | base (r : Register) (writeback : Bool)
  | rotated (r : Register) (bytes : BitVec 2)
  | shifted (r : Register) (shift : Shift)
  | immediate (value : Word)
  | memory (m : Memory)
  | registers (members : BitVec 16) (user : Bool)
  | target (a : Addr)
  | word (value : Word)
  | decimal (value : Int)
  | number (n : Nat)
  | status (saved : Bool)
  | statusFields (saved : Bool) (fields : BitVec 4)
  | coprocessor (n : BitVec 4)
  | coprocessorRegister (n : BitVec 4)
  | float (n : BitVec 3)
  | floatConstant (n : BitVec 3)
deriving DecidableEq, Repr

namespace Operand

def members (set : BitVec 16) : List Register :=
  ((List.range 16).filter fun i => set.getLsbD i).map (BitVec.ofNat 4)

/-- The constants of the floating-point unit, in encoding order. -/
def floatConstants : Vector String 8 := #v["0.0", "1.0", "2.0", "3.0", "4.0", "5.0", "0.5", "10.0"]

def statusName (saved : Bool) : String := if saved then "spsr" else "cpsr"

/-- The letters of the status fields that are written: control, extension, status, flags. -/
def fieldLetters (fields : BitVec 4) : String :=
  String.ofList (((List.range 4).zip ['c', 'x', 's', 'f']).filterMap fun (i, c) =>
    if fields.getLsbD i then some c else none)

/-- The pieces of an operand, with those of an offset as `cut` gives them. -/
def pieces (cut : Offset → List Piece) : Operand → List Piece
  | .register r => [.text r.name]
  | .base r writeback => .text r.name :: if writeback then [.text "!"] else []
  | .rotated r bytes =>
    .text r.name :: if bytes = 0 then [] else [.text (", ror #" ++ toString (8 * bytes.toNat))]
  | .shifted r shift => .text r.name :: shift.pieces
  | .immediate value => [.text ("#0x" ++ Hex.text value.toNat)]
  | .memory m => m.pieces cut
  | .registers set user =>
    .text "\x7b" :: ([Piece.text ", "].intercalate ((members set).map fun r => [.text r.name]) ++
      .text "\x7d" :: if user then [.text "^"] else [])
  | .target a => [.address a]
  | .word value => [.text (Hex.marked value.toNat)]
  | .decimal value => [.text ("#" ++ toString value)]
  | .number n => [.text (toString n)]
  | .status saved => [.text (statusName saved)]
  | .statusFields saved fields =>
    .text (statusName saved) :: .text "_" ::
      (fieldLetters fields).toList.map fun c => .text (String.singleton c)
  | .coprocessor n => [.text ("p" ++ toString n.toNat)]
  | .coprocessorRegister n => [.text ("c" ++ toString n.toNat)]
  | .float n => [.text ("f" ++ toString n.toNat)]
  | .floatConstant n => [.text ("#" ++ floatConstants.get n.toFin)]

/-- A branch reaches the counter, two words ahead, plus a signed distance in words. -/
def jumpTarget (loc : Addr) (w : Word) : Addr := loc + 8 + 4 * (w.field 0 24).signExtend 32

/-- The second operand of data processing: a byte rotated right by an even amount if bit 25 is set,
or a shifted register. -/
def flexible (w : Word) : Operand :=
  if w.bit 25 then
    .immediate (((w.field 0 8).setWidth 32).rotateRight (2 * (w.field 8 4).toNat))
  else .shifted (w.field 0 4) (.ofWord w)

/-- The width of a bit field. Extraction encodes the width less one; insertion encodes the highest
bit, which may lie below the lowest. -/
def fieldWidth (w : Word) : Int :=
  let high : Int := (w.field 16 5).toNat
  if w.bit 21 then high + 1 else high - (w.field 7 5).toNat + 1

/-- The count of floating-point registers: bits 22 and 15, where zero stands for four. -/
def floatCount (w : Word) : Nat :=
  let n := 2 * (w.bit 22).toNat + (w.bit 15).toNat
  if n = 0 then 4 else n

end Operand

namespace Slot

open Operand

def operands (loc : Addr) (w : Word) : Slot → List Operand
  | .rd => [.register (w.field 12 4)]
  | .rn => [.register (w.field 16 4)]
  | .rs => [.register (w.field 8 4)]
  | .rm => [.register (w.field 0 4)]
  | .base => [.base (w.field 16 4) (w.bit 21)]
  | .rotatedRm => [.rotated (w.field 0 4) (w.field 10 2)]
  | .atRn => [.memory (.preIndexed (w.field 16 4) (.immediate true 0) false)]
  | .flexible => [Operand.flexible w]
  | .address => [.memory (.ofTransfer loc w)]
  | .splitAddress => [.memory (.ofHalfwordTransfer loc w)]
  | .registers => [.registers (w.field 0 16) (w.bit 22)]
  | .branch => [.target (jumpTarget loc w)]
  | .exchangeBranch => [.target (jumpTarget loc w + if w.bit 24 then 2 else 0)]
  | .breakpoint => [.immediate ((w.field 8 12 ++ w.field 0 4).setWidth 32)]
  | .comment => [.word ((w.field 0 24).setWidth 32)]
  | .word => [.word w]
  | .status => [.status (w.bit 22)]
  | .statusFields => [.statusFields (w.bit 22) (w.field 16 4)]
  | .lowestBit => [.decimal (w.field 7 5).toNat]
  | .width => [.decimal (fieldWidth w)]
  | .coprocessor => [.coprocessor (w.field 8 4)]
  | .coprocessorOperation =>
    [.number (w.field 20 4).toNat, .coprocessorRegister (w.field 12 4),
      .coprocessorRegister (w.field 16 4), .coprocessorRegister (w.field 0 4),
      .number (w.field 5 3).toNat]
  | .coprocessorMove =>
    [.number (w.field 21 3).toNat, .register (w.field 12 4),
      .coprocessorRegister (w.field 16 4), .coprocessorRegister (w.field 0 4),
      .number (w.field 5 3).toNat]
  | .coprocessorTransfer =>
    [.coprocessorRegister (w.field 12 4), .memory (.ofCoprocessorTransfer loc w)]
  | .coprocessorAddress => [.memory (.ofCoprocessorTransfer loc w)]
  | .fd => [.float (w.field 12 3)]
  | .fn => [.float (w.field 16 3)]
  | .fm => [if w.bit 3 then .floatConstant (w.field 0 3) else .float (w.field 0 3)]
  | .floatCount => [.number (Operand.floatCount w)]

/-- The pieces of the operands of a slot. Those of a coprocessor's own instructions make one text,
and so do a bracketed register and an offset without a shift. -/
def pieces (l : List Operand) : Slot → List Piece
  | .atRn | .coprocessorOperation | .coprocessorMove =>
    Piece.fuse ([Piece.text ", "].intercalate (l.map (Operand.pieces Offset.pieces)))
  | .coprocessorTransfer =>
    -- The comma belongs to the text of the register in front of it.
    Piece.fuse ((l.take 1).flatMap (Operand.pieces Offset.pieces) ++ [.text ", "]) ++
      (l.drop 1).flatMap (Operand.pieces Offset.pieces)
  | .splitAddress => l.flatMap (Operand.pieces fun offset => [.text offset.text])
  | _ => l.flatMap (Operand.pieces Offset.pieces)

/-- The slots of a word, each behind a separator: `separator` for the first, then a comma. -/
def listed (loc : Addr) (w : Word) (separator : String) : List Slot → List Piece
  | [] => []
  | s :: l => .text separator :: (s.pieces (s.operands loc w) ++ listed loc w ", " l)

end Slot

end Disarm
