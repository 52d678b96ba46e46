import Disarm.Instruction.Table
/-!
Decoders that look at one field of a word after the other. A check walks through a decoder with the
bits that are known on the way and keeps the rows of a table that may still match. Main statement: a
decoder that passes the check finds the same entry as the first match in the table.
-/

namespace Disarm

/-- The words that have a value under a mask; bits outside the mask are free. -/
structure Cube where
  mask : Word
  value : Word

namespace Cube

def Contains (c : Cube) (w : Word) : Prop := w &&& c.mask = c.value

instance (c : Cube) (w : Word) : Decidable (c.Contains w) := inferInstanceAs (Decidable (_ = _))

def full : Cube := ⟨0, 0⟩

def inter (c d : Cube) : Cube := ⟨c.mask ||| d.mask, c.value ||| d.value⟩

def ofField (low : Nat) {len : Nat} (x : BitVec len) : Cube :=
  ⟨(BitVec.allOnes len).setWidth 32 <<< low, x.setWidth 32 <<< low⟩

/-- The cubes agree on the bits that both know. -/
def Compatible (c d : Cube) : Prop := (c.value ^^^ d.value) &&& (c.mask &&& d.mask) = 0

instance (c d : Cube) : Decidable (c.Compatible d) := inferInstanceAs (Decidable (_ = _))

def Within (c d : Cube) : Prop := c.mask &&& d.mask = d.mask ∧ c.value &&& d.mask = d.value

instance (c d : Cube) : Decidable (c.Within d) := inferInstanceAs (Decidable (_ ∧ _))

theorem Contains.inter {c d : Cube} {w : Word} (hc : c.Contains w) (hd : d.Contains w) :
    (c.inter d).Contains w := by
  unfold Contains at hc hd ⊢
  simp only [Cube.inter, ← hc, ← hd]
  ext i
  simp only [BitVec.getElem_and, BitVec.getElem_or]
  cases w[i] <;> rfl

theorem contains_ofField (low len : Nat) (w : Word) : (ofField low (w.field low len)).Contains w := by
  unfold Contains ofField
  apply BitVec.eq_of_getLsbD_eq
  intro i hi
  by_cases h : i < low
  · simp [h]
  · have e : low + (i - low) = i := by omega
    by_cases hl : i - low < len
    · simp [hi, h, hl, e]
    · simp [hi, h, hl]

theorem Contains.compatible {c d : Cube} {w : Word} (hc : c.Contains w) (hd : d.Contains w) :
    c.Compatible d := by
  unfold Contains at hc hd
  unfold Compatible
  rw [← hc, ← hd]
  apply BitVec.eq_of_getLsbD_eq
  intro i _
  simp only [BitVec.getLsbD_and, BitVec.getLsbD_xor, BitVec.ofNat_eq_ofNat, BitVec.getLsbD_zero]
  cases w.getLsbD i <;> cases c.mask.getLsbD i <;> cases d.mask.getLsbD i <;> rfl

theorem Within.contains {c d : Cube} {w : Word} (h : c.Within d) (hc : c.Contains w) :
    d.Contains w := by
  unfold Contains at hc ⊢
  rw [← h.1, ← BitVec.and_assoc, hc, h.2]

end Cube

namespace Entry

def cube (e : Entry) : Cube := ⟨e.mask, e.pattern⟩

end Entry

/-- A decoder that looks at one field of a word after the other. -/
inductive Decoder where
  | entry (e : Entry)
  | field (low len : Nat) (next : BitVec len → Decoder)
  | fixed (mask pattern : Word) (yes no : Decoder)

namespace Decoder

def run : Decoder → Word → Entry
  | entry e, _ => e
  | field low len next, w => (next (w.field low len)).run w
  | fixed mask pattern yes no, w => if w &&& mask = pattern then yes.run w else no.run w

def named (group : List Entry) (name : String) : Decoder :=
  entry ((group.find? (·.name = name)).getD .fallback)

def undefined : Decoder := entry .fallback

/-- The first of the entries that are left is certain and is the one that is given. -/
def Decides (e : Entry) (known : Cube) : List Entry → Prop
  | [] => e = .fallback
  | a :: _ => a = e ∧ known.Within a.cube

instance (e : Entry) (known : Cube) : (l : List Entry) → Decidable (Decides e known l)
  | [] => inferInstanceAs (Decidable (_ = _))
  | _ :: _ => inferInstanceAs (Decidable (_ ∧ _))

/-- Checks a decoder for the words of a cube against the entries that may match them. A way that no
word of the cube goes is not looked at. -/
def agrees (known : Cube) (l : List Entry) : Decoder → Bool
  | entry e => Decides e known l
  | field low len next =>
    (List.range (2 ^ len)).all fun x =>
      let test := Cube.ofField low (BitVec.ofNat len x)
      !known.Compatible test || agrees (known.inter test)
        (l.filter fun e => e.cube.Compatible (known.inter test)) (next (BitVec.ofNat len x))
  | fixed mask pattern yes no =>
    let test : Cube := ⟨mask, pattern⟩
    (!known.Compatible test || agrees (known.inter test)
      (l.filter fun e => e.cube.Compatible (known.inter test)) yes) &&
      agrees known (l.filter fun e => ¬e.cube.Within test) no

end Decoder

end Disarm
