import Disarm.Proofs.Layout
import Disarm.Proofs.Placement
import Mathlib.Order.Bounds.Defs
/-!
Images of code. Only the segments of code count, and at an address only the last one there. Main
statement: which segments make no image, what the image of others shows, and which segments may be
added, left out or put in another order without a change to it.
-/

namespace Disarm

namespace Segment

variable {l m : List Segment} {a low high : Nat}

abbrev codeOf (l : List Segment) : List Segment := l.filter (·.executable)

structure Bounds (l : List Segment) (low high : Nat) : Prop where
  low : IsLeast {a | ∃ s ∈ l, s.address.toNat = a} low
  high : IsGreatest {a | ∃ s ∈ l, s.stop = a} high

theorem bounds_iff : Bounds l low high ↔
    (l.map (·.address.toNat)).min? = some low ∧ (l.map stop).max? = some high := by
  rw [List.min?_eq_some_iff, List.max?_eq_some_iff, List.forall_mem_map, List.forall_mem_map,
    List.mem_map, List.mem_map]
  constructor
  · rintro ⟨⟨first, least⟩, ⟨last, greatest⟩⟩
    exact ⟨⟨first, fun s hs => least ⟨s, hs, rfl⟩⟩, ⟨last, fun s hs => greatest ⟨s, hs, rfl⟩⟩⟩
  · rintro ⟨⟨first, least⟩, ⟨last, greatest⟩⟩
    refine ⟨⟨first, ?_⟩, ⟨last, ?_⟩⟩
    · rintro _ ⟨s, hs, rfl⟩
      exact least s hs
    · rintro _ ⟨s, hs, rfl⟩
      exact greatest s hs

theorem exists_bounds (h : l ≠ []) : ∃ low high, Bounds l low high := by
  have some_low : (l.map (·.address.toNat)).min?.isSome := by
    rwa [List.isSome_min?_iff, ne_eq, List.map_eq_nil_iff]
  have some_high : (l.map stop).max?.isSome := by
    rwa [List.isSome_max?_iff, ne_eq, List.map_eq_nil_iff]
  obtain ⟨low, hlow⟩ := Option.isSome_iff_exists.1 some_low
  obtain ⟨high, hhigh⟩ := Option.isSome_iff_exists.1 some_high
  exact ⟨low, high, bounds_iff.2 ⟨hlow, hhigh⟩⟩

namespace Bounds

theorem between (h : Bounds l low high) {s : Segment} (hs : s ∈ l) :
    low ≤ s.address.toNat ∧ s.stop ≤ low + (high - low) := by
  have above : low ≤ s.address.toNat := h.low.2 ⟨s, hs, rfl⟩
  have below : s.stop ≤ high := h.high.2 ⟨s, hs, rfl⟩
  unfold stop at below ⊢
  omega

theorem low_le_high (h : Bounds l low high) : low ≤ high := by
  obtain ⟨s, hs, first⟩ := h.low.1
  have below : s.stop ≤ high := h.high.2 ⟨s, hs, rfl⟩
  unfold stop at below
  omega

theorem perm (h : Bounds l low high) (same : m.Perm l) : Bounds m low high := by
  obtain ⟨hlow, hhigh⟩ := h
  simp only [← same.mem_iff] at hlow hhigh
  exact ⟨hlow, hhigh⟩

end Bounds

/-! ### Segments at an address -/

/-- No address lies in both segments. -/
def Apart (s t : Segment) : Prop := ∀ a, ¬(s.Covers a ∧ t.Covers a)

theorem lastAt_eq_getLast? (l : List Segment) (a : Nat) :
    lastAt l a = (l.filter fun s => s.Covers a).getLast? := List.getLast?_filter.symm

theorem byteAt_congr (same : lastAt l a = lastAt m a) : byteAt l a = byteAt m a := by
  rw [byteAt, byteAt, same]

theorem lastAt_of_perm (same : m.Perm l) (apart : l.Pairwise Apart) (a : Nat) :
    lastAt m a = lastAt l a := by
  have here := same.filter fun s => s.Covers a
  have apart := apart.filter fun s => s.Covers a
  have covers : ∀ s ∈ l.filter fun s => s.Covers a, s.Covers a :=
    fun s hs => of_decide_eq_true (List.mem_filter.1 hs).2
  rw [lastAt_eq_getLast?, lastAt_eq_getLast?]
  match h : l.filter fun s => s.Covers a with
  | [] =>
    rw [h] at here ⊢
    rw [here.eq_nil]
  | [s] =>
    rw [h] at here ⊢
    rw [here.eq_singleton]
  | s :: t :: rest =>
    rw [h] at apart covers
    have both := (List.pairwise_cons.1 apart).1 t List.mem_cons_self a
    exact absurd ⟨covers s (by simp), covers t (by simp)⟩ both

/-- Two neighbours that lie apart may change places, whatever lies over them. -/
theorem lastAt_swap {s t : Segment} (apart : s.Apart t) (before after : List Segment) (a : Nat) :
    lastAt (before ++ t :: s :: after) a = lastAt (before ++ s :: t :: after) a := by
  rw [lastAt_eq_getLast?, lastAt_eq_getLast?, List.filter_append, List.filter_append]
  by_cases hs : s.Covers a
  · have ht : ¬t.Covers a := fun ht => apart a ⟨hs, ht⟩
    simp [hs, ht]
  · simp [List.filter_cons, hs]

end Segment

/-! ### Copies into a buffer -/

namespace Image

open Segment

variable {l m : List Segment} {low high : Nat} {b : ByteArray}

/-- Copies a segment into a buffer that starts at the address `low`. The segment may neither start
before the buffer nor end after it. -/
def copyInto? (low : Nat) (b : ByteArray) (s : Segment) : Option ByteArray :=
  if low ≤ s.address.toNat ∧ s.address.toNat - low + s.data.size ≤ b.size then
    some (Bytes.overlay b (s.address.toNat - low) s.data)
  else none

/-- No copy reaches out of the buffer, which keeps its size all along. -/
theorem foldlM_copyInto? (hl : ∀ s ∈ l, low ≤ s.address.toNat ∧ s.stop ≤ low + b.size) :
    l.foldlM (copyInto? low) b = some (layOver low b l) := by
  induction l generalizing b with
  | nil => rfl
  | cons s l ih =>
    obtain ⟨⟨hs, hs'⟩, hl⟩ := List.forall_mem_cons.1 hl
    have fits : s.address.toNat - low + s.data.size ≤ b.size := by
      unfold Segment.stop at hs'
      omega
    have first : copyInto? low b s = some (Bytes.overlay b (s.address.toNat - low) s.data) :=
      if_pos ⟨hs, fits⟩
    rw [List.foldlM_cons, first]
    exact ih (by rwa [Bytes.size_overlay fits])

theorem lay_congr (hl : Bounds l low high) (hm : Bounds m low high)
    (same : ∀ a, lastAt m a = lastAt l a) : lay low (high - low) m = lay low (high - low) l := by
  refine Bytes.ext_byte? fun k => ?_
  by_cases inside : k < high - low
  · rw [byte?_lay (fun s => hm.between) inside, byte?_lay (fun s => hl.between) inside,
      byteAt_congr (same _)]
  · have size (l : List Segment) (h : Bounds l low high) :
        (lay low (high - low) l).size = high - low := size_lay fun s => h.between
    rw [Bytes.byte?_of_le (by rw [size m hm]; omega), Bytes.byte?_of_le (by rw [size l hl]; omega)]

/-! ### Images -/

theorem ofSegments_of_bounds (h : Bounds (codeOf l) low high) :
    ofSegments l =
      if maxSpan < high - low then .error (.tooWide (high - low))
      else .ok ⟨BitVec.ofNat 32 low, lay low (high - low) (codeOf l)⟩ := by
  obtain ⟨hlow, hhigh⟩ := bounds_iff.1 h
  simp only [ofSegments, hlow, hhigh]

theorem ofSegments_of_noCode (h : codeOf l = []) : ofSegments l = .error .noCode := by
  simp only [ofSegments, h]
  rfl

/-- Segments with the same bounds and the same last segment everywhere make the same image. -/
theorem ofSegments_congr (same : (codeOf m).Perm (codeOf l))
    (last : ∀ a, lastAt (codeOf m) a = lastAt (codeOf l) a) : ofSegments m = ofSegments l := by
  by_cases none : codeOf l = []
  · rw [none] at same
    rw [ofSegments_of_noCode none, ofSegments_of_noCode same.eq_nil]
  · obtain ⟨low, high, hl⟩ := exists_bounds none
    have hm := hl.perm same
    rw [ofSegments_of_bounds hl, ofSegments_of_bounds hm, lay_congr hl hm last]

theorem message_eq_noCode {e : LayoutError} (h : e.message = "no executable segments found") :
    e = .noCode := by
  cases e with
  | noCode => rfl
  | tooWide span =>
    have start : "executable segments span 0x".toList.head? = some 'e' := by decide
    have other : "no executable segments found".toList.head? = some 'n' := by decide
    unfold LayoutError.message at h
    rw [← h, String.toList_append, String.toList_append, List.append_assoc, List.head?_append,
      start] at other
    cases other

theorem codeOf_eq_nil : codeOf l = [] ↔ ∀ s ∈ l, s.executable = false := by
  simp only [codeOf, List.filter_eq_nil_iff, Bool.not_eq_true]

theorem message_eq_iff :
    (∃ e, ofSegments l = .error e ∧ e.message = "no executable segments found") ↔
      ∀ s ∈ l, s.executable = false := by
  rw [← codeOf_eq_nil]
  constructor
  · rintro ⟨e, failed, text⟩
    rw [message_eq_noCode text] at failed
    refine Classical.byContradiction fun some => ?_
    obtain ⟨low, high, h⟩ := exists_bounds some
    rw [ofSegments_of_bounds h] at failed
    split at failed <;> cases failed
  · intro none
    exact ⟨.noCode, ofSegments_of_noCode none, rfl⟩

/-- The segments between two bounds, copied one after the other. -/
structure Holds (i : Image) (l : List Segment) (low high : Nat) : Prop where
  base : i.base.toNat = low
  size : i.data.size = high - low
  byte : ∀ k < high - low, Bytes.byte? i.data k = some (byteAt l (low + k))
  copies : l.foldlM (copyInto? low) (Bytes.zeros (high - low)) = some i.data

theorem holds_lay (h : Bounds l low high) :
    Holds ⟨BitVec.ofNat 32 low, lay low (high - low) l⟩ l low high where
  base := by
    obtain ⟨s, -, first⟩ := h.low.1
    change (BitVec.ofNat 32 low).toNat = low
    rw [← first, BitVec.ofNat_toNat, BitVec.setWidth_eq]
  size := size_lay fun s => h.between
  byte k hk := byte?_lay (fun s => h.between) hk
  copies := foldlM_copyInto? (by rw [Bytes.size_zeros]; exact fun s => h.between)

theorem ofSegments_eq_error (h : Bounds (codeOf l) low high) {e : LayoutError} :
    ofSegments l = .error e ↔ maxSpan < high - low ∧ e = .tooWide (high - low) := by
  rw [ofSegments_of_bounds h]
  by_cases wide : maxSpan < high - low
  · rw [if_pos wide, Except.error.injEq]
    exact ⟨fun same => ⟨wide, same.symm⟩, fun same => same.2.symm⟩
  · rw [if_neg wide]
    exact ⟨nofun, fun same => absurd same.1 wide⟩

theorem holds_ofSegments (h : Bounds (codeOf l) low high) (narrow : high - low ≤ maxSpan) :
    ∃ i, ofSegments l = .ok i ∧ Holds i (codeOf l) low high := by
  rw [ofSegments_of_bounds h, if_neg (Nat.not_lt.2 narrow)]
  exact ⟨_, rfl, holds_lay h⟩

theorem ofSegments_swap {before after : List Segment} {s t : Segment} (apart : s.Apart t)
    (hl : codeOf l = before ++ s :: t :: after) (hm : codeOf m = before ++ t :: s :: after) :
    ofSegments m = ofSegments l := by
  refine ofSegments_congr ?_ fun a => ?_
  · rw [hl, hm]
    exact (List.Perm.swap s t after).append_left before
  · rw [hl, hm]
    exact lastAt_swap apart before after a

/-- Without code there is no image. Code makes one unless it reaches too far: at each address the
byte of the last segment there, every copy within the buffer. Segments without code do not count,
nor does the order of segments that lie apart. -/
theorem ofSegments_exact (l : List Segment) :
    ((∃ e, ofSegments l = .error e ∧ e.message = "no executable segments found") ↔
      ∀ s ∈ l, s.executable = false) ∧
    ((∃ s ∈ l, s.executable = true) → ∃ low high, Bounds (codeOf l) low high ∧ low ≤ high ∧
      (∀ e, ofSegments l = .error e ↔ maxSpan < high - low ∧ e = .tooWide (high - low)) ∧
      (high - low ≤ maxSpan → ∃ i, ofSegments l = .ok i ∧ Holds i (codeOf l) low high)) ∧
    (∀ m, codeOf m = codeOf l → ofSegments m = ofSegments l) ∧
    (∀ m, (codeOf m).Perm (codeOf l) → (codeOf l).Pairwise Apart →
      ofSegments m = ofSegments l) ∧
    ∀ m before s t after, codeOf l = before ++ s :: t :: after →
      codeOf m = before ++ t :: s :: after → s.Apart t → ofSegments m = ofSegments l := by
  refine ⟨message_eq_iff, ?_, ?_, ?_, ?_⟩
  · rintro ⟨s, hs, code⟩
    have some : codeOf l ≠ [] := List.ne_nil_of_mem (List.mem_filter.2 ⟨hs, code⟩)
    obtain ⟨low, high, h⟩ := exists_bounds some
    exact ⟨low, high, h, h.low_le_high, fun e => ofSegments_eq_error h, holds_ofSegments h⟩
  · intro m same
    refine ofSegments_congr (.of_eq same) fun a => ?_
    rw [same]
  · intro m same apart
    exact ofSegments_congr same (lastAt_of_perm same apart)
  · intro m before s t after hl hm apart
    exact ofSegments_swap apart hl hm

/-- Code that passes the top of the address space, a second segment inside the first, an empty one
below both, and data. -/
def passingTop : List Segment :=
  [⟨0xfffffff8, ⟨#[1, 2, 3, 4, 5, 6, 7, 8, 9, 10, 11, 12]⟩, true⟩, ⟨0x8000, ⟨#[0xff]⟩, false⟩,
    ⟨0xfffffffa, ⟨#[0x20, 0x21, 0x22]⟩, true⟩, ⟨0xfffffff6, .empty, true⟩]

theorem ofSegments_exact_passingTop :
    (∃ s ∈ passingTop, s.executable = true) ∧ Bounds (codeOf passingTop) 0xfffffff6 0x100000004 ∧
    ∃ i, ofSegments passingTop = .ok i ∧ Holds i (codeOf passingTop) 0xfffffff6 0x100000004 ∧
      i.data = ⟨#[0, 0, 1, 2, 0x20, 0x21, 0x22, 6, 7, 8, 9, 10, 11, 12]⟩ := by
  have code : ∃ s ∈ passingTop, s.executable = true := ⟨_, List.mem_cons_self, rfl⟩
  have narrow : 0x100000004 - 0xfffffff6 ≤ maxSpan := by decide
  obtain ⟨low, high, h, -, -, image⟩ := (ofSegments_exact passingTop).2.1 code
  obtain ⟨first, last⟩ := bounds_iff.1 h
  obtain rfl : 0xfffffff6 = low := Option.some.inj (Eq.trans (by decide) first)
  obtain rfl : 0x100000004 = high := Option.some.inj (Eq.trans (by decide) last)
  obtain ⟨i, made, holds⟩ := image narrow
  refine ⟨code, h, i, made, holds, Option.some.inj (holds.copies.symm.trans ?_)⟩
  decide +kernel

end Image

end Disarm
