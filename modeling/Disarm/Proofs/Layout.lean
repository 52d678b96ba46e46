import Disarm.Image.Layout
import Disarm.Proofs.ByteStrings
/-!
Segments laid out as an image. Laying one after the other is the same as asking, for each address, which
segment covers it last. Main statement: an image of segments spans those that are code and shows at
each address the byte of the last one there.
-/

namespace Disarm

namespace Segment

def Covers (s : Segment) (a : Nat) : Prop := s.address.toNat ≤ a ∧ a < s.stop

instance (s : Segment) (a : Nat) : Decidable (s.Covers a) := inferInstanceAs (Decidable (_ ∧ _))

/-- The last segment at an address. -/
def lastAt (l : List Segment) (a : Nat) : Option Segment := l.reverse.find? fun s => s.Covers a

theorem lastAt_cons (s : Segment) (l : List Segment) (a : Nat) :
    lastAt (s :: l) a = (lastAt l a).or (if s.Covers a then some s else none) := by
  unfold lastAt
  rw [List.reverse_cons, List.find?_append, List.find?_singleton]
  by_cases h : s.Covers a <;> simp [h]

theorem covers_of_lastAt {s : Segment} {l : List Segment} {a : Nat} (h : lastAt l a = some s) :
    s.Covers a := by
  simpa using List.find?_some h

/-- The byte at an address: that of the last segment there, and zero if there is none. -/
def byteAt (l : List Segment) (a : Nat) : UInt8 :=
  match lastAt l a with
  | some s => (Bytes.byte? s.data (a - s.address.toNat)).getD 0
  | none => 0

end Segment

namespace Image

section Overlay

variable {low : Nat} {b : ByteArray} {l : List Segment}

abbrev layOver (low : Nat) (b : ByteArray) (l : List Segment) : ByteArray :=
  l.foldl (fun b s => Bytes.overlay b (s.address.toNat - low) s.data) b

theorem size_layOver (hl : ∀ s ∈ l, low ≤ s.address.toNat ∧ s.stop ≤ low + b.size) :
    (layOver low b l).size = b.size := by
  induction l generalizing b with
  | nil => rfl
  | cons s l ih =>
    obtain ⟨⟨hs, hs'⟩, hl⟩ := List.forall_mem_cons.1 hl
    have fits : s.address.toNat - low + s.data.size ≤ b.size := by
      unfold Segment.stop at hs'
      omega
    have size := Bytes.size_overlay fits
    rw [layOver, List.foldl_cons, ← size]
    exact ih (by rwa [size])

theorem byte?_layOver (hl : ∀ s ∈ l, low ≤ s.address.toNat ∧ s.stop ≤ low + b.size) (k : Nat) :
    Bytes.byte? (layOver low b l) k =
      match Segment.lastAt l (low + k) with
      | some s => Bytes.byte? s.data (low + k - s.address.toNat)
      | none => Bytes.byte? b k := by
  induction l generalizing b with
  | nil => rfl
  | cons s l ih =>
    obtain ⟨⟨hs, hs'⟩, hl⟩ := List.forall_mem_cons.1 hl
    have fits : s.address.toNat - low + s.data.size ≤ b.size := by
      unfold Segment.stop at hs'
      omega
    have size := Bytes.size_overlay fits
    -- The rest of the list goes over what `s` has left; only where it covers nothing `s` shows.
    rw [layOver, List.foldl_cons, ih (by rwa [size]), Segment.lastAt_cons]
    cases Segment.lastAt l (low + k) with
    | some t => rfl
    | none =>
      have place : low + k - s.address.toNat = k - (s.address.toNat - low) := by omega
      rw [Bytes.byte?_overlay fits, Option.none_or]
      by_cases h : s.Covers (low + k)
      · have inside : s.address.toNat - low ≤ k ∧ k < s.address.toNat - low + s.data.size := by
          unfold Segment.Covers Segment.stop at h
          omega
        rw [if_pos inside, if_pos h]
        exact congrArg (Bytes.byte? s.data) place.symm
      · have outside : ¬(s.address.toNat - low ≤ k ∧ k < s.address.toNat - low + s.data.size) := by
          unfold Segment.Covers Segment.stop at h
          omega
        rw [if_neg outside, if_neg h]

end Overlay

theorem size_lay {low span : Nat} {l : List Segment}
    (hl : ∀ s ∈ l, low ≤ s.address.toNat ∧ s.stop ≤ low + span) : (lay low span l).size = span := by
  have size := Bytes.size_zeros span
  exact (size_layOver (by rwa [size])).trans size

theorem byte?_lay {low span k : Nat} {l : List Segment}
    (hl : ∀ s ∈ l, low ≤ s.address.toNat ∧ s.stop ≤ low + span) (hk : k < span) :
    Bytes.byte? (lay low span l) k = some (Segment.byteAt l (low + k)) := by
  have size := Bytes.size_zeros span
  have shown := byte?_layOver (b := Bytes.zeros span) (by rwa [size]) k
  rw [lay, shown, Segment.byteAt]
  cases h : Segment.lastAt l (low + k) with
  | none => exact Bytes.byte?_zeros.trans (if_pos hk)
  | some s =>
    obtain ⟨above, below⟩ := Segment.covers_of_lastAt h
    have inside : low + k - s.address.toNat < s.data.size := by
      unfold Segment.stop at below
      omega
    simp only [Bytes.byte?_of_lt inside, Option.getD_some]

/-- What segments make an image of. -/
structure Spans (i : Image) (code : List Segment) : Prop where
  low : (code.map fun s => s.address.toNat).min? = some i.base.toNat
  high : (code.map Segment.stop).max? = some i.stop
  byte : ∀ a, i.base.toNat ≤ a → a < i.stop →
    Bytes.byte? i.data (a - i.base.toNat) = some (Segment.byteAt code a)

theorem spans_lay {code : List Segment} {low high : Nat}
    (hlow : (code.map fun s => s.address.toNat).min? = some low)
    (hhigh : (code.map Segment.stop).max? = some high) :
    Spans ⟨BitVec.ofNat 32 low, lay low (high - low) code⟩ code := by
  obtain ⟨hmem, least⟩ := List.min?_eq_some_iff.1 hlow
  obtain ⟨-, greatest⟩ := List.max?_eq_some_iff.1 hhigh
  obtain ⟨first, hfirst, rfl⟩ := List.mem_map.1 hmem
  have first_le : first.address.toNat ≤ high := by
    have := greatest _ (List.mem_map_of_mem hfirst)
    unfold Segment.stop at this
    omega
  have between : ∀ s ∈ code, first.address.toNat ≤ s.address.toNat ∧
      s.stop ≤ first.address.toNat + (high - first.address.toNat) := by
    intro s hs
    have below := greatest _ (List.mem_map_of_mem hs)
    exact ⟨least _ (List.mem_map_of_mem hs), by omega⟩
  have base : (BitVec.ofNat 32 first.address.toNat).toNat = first.address.toNat := by
    rw [BitVec.ofNat_toNat, BitVec.setWidth_eq]
  have stop : stop ⟨BitVec.ofNat 32 first.address.toNat,
      lay first.address.toNat (high - first.address.toNat) code⟩ = high := by
    rw [Image.stop, base, size_lay between]
    omega
  refine ⟨by rwa [base], by rwa [stop], fun a above below => ?_⟩
  rw [stop] at below
  rw [base] at above ⊢
  rw [byte?_lay between (by omega), Nat.add_sub_cancel' above]

theorem spans_of_ofSegments {l : List Segment} {i : Image} (h : ofSegments l = .ok i) :
    i.Spans (l.filter (·.executable)) := by
  simp only [ofSegments] at h
  split at h
  · next low high hlow hhigh =>
    split at h
    · cases h
    · cases h
      exact spans_lay hlow hhigh
  · cases h

end Image

namespace Segment

def wordAt (l : List Segment) (a : Nat) : Word :=
  .ofBytes (byteAt l a) (byteAt l (a + 1)) (byteAt l (a + 2)) (byteAt l (a + 3))

end Segment

theorem Image.Spans.fetch {i : Image} {code : List Segment} {a : Addr} (h : i.Spans code)
    (aligned : a.Aligned) (ha : i.HasWord a) : i.fetch a = .ok (Segment.wordAt code a.toNat) := by
  obtain ⟨above, below⟩ := ha
  have distance : (a - i.base).toNat = a.toNat - i.base.toNat := BitVec.toNat_sub_of_le above
  refine Image.fetch_eq_ok (f := fun k => Segment.byteAt code (a.toNat + k)) aligned above ?_
  intro k hk
  have inside : a.toNat + k < i.stop := by
    unfold wordSize at below
    omega
  have byte := h.byte (a.toNat + k) (Nat.le_add_right_of_le above) inside
  rwa [Nat.sub_add_comm above, ← distance] at byte

end Disarm
