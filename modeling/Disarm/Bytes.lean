import Disarm.Word
/-!
Byte strings: checked little-endian reads, slices, runs of zeros and overlays. A read that passes
the end of the bytes has no value.
-/

namespace Disarm.Bytes

def byte? (b : ByteArray) (i : Nat) : Option UInt8 := if h : i < b.size then some b[i] else none

def half? (b : ByteArray) (i : Nat) : Option (BitVec 16) := do
  let b₀ ← byte? b i
  let b₁ ← byte? b (i + 1)
  return b₁.toBitVec ++ b₀.toBitVec

def word? (b : ByteArray) (i : Nat) : Option Word := do
  let b₀ ← byte? b i
  let b₁ ← byte? b (i + 1)
  let b₂ ← byte? b (i + 2)
  let b₃ ← byte? b (i + 3)
  return Word.ofBytes b₀ b₁ b₂ b₃

/-- The `len` bytes from an offset on, if there are so many. -/
def slice? (b : ByteArray) (i len : Nat) : Option ByteArray :=
  if i + len ≤ b.size then some (b.extract i (i + len)) else none

/-- A run of zero bytes, made by doubling. -/
def zeros (n : Nat) : ByteArray :=
  if n = 0 then .empty
  else
    let half := zeros (n / 2)
    if n % 2 = 0 then half ++ half else (half ++ half).push 0

theorem size_zeros (n : Nat) : (zeros n).size = n := by
  induction n using Nat.strongRecOn with
  | _ n ih =>
    rw [zeros]
    split
    · simp_all
    · have := ih (n / 2) (by omega)
      split <;> simp only [ByteArray.size_append, ByteArray.size_push, this] <;> omega

/-- The offset of the first zero byte from an offset on, or the end of the bytes. -/
def zeroFrom (b : ByteArray) (i : Nat) : Nat :=
  if h : i < b.size then if b[i] = 0 then i else zeroFrom b (i + 1) else b.size
termination_by b.size - i

def overlay (b : ByteArray) (i : Nat) (s : ByteArray) : ByteArray := s.copySlice 0 b i s.size

end Disarm.Bytes
