import Disarm.Proofs.Placement
import Disarm.Proofs.Rows
/-!
Listings into a sink that runs full. A listing is a list of parts, each written in one go: headings and
instruction lines. Main statement: a sink with a limit takes the first bytes of the listing, and the
part that holds the first byte left out tells what is said of it.
-/

namespace Disarm

theorem Sink.bytes_of_write {text : String} {s next : Sink} (h : s.write text = (true, next)) :
    next.bytes = s.bytes ++ text.toUTF8 := by
  unfold Sink.write at h
  dsimp only at h
  split at h
  · cases h
    rfl
  · split at h <;> cases h
    rfl

/-- A part of a listing. -/
inductive Part where
  | heading (text : String)
  | line (text : String)

namespace Part

def text : Part → String
  | heading text | line text => text

def bytes (p : Part) : ByteArray := p.text.toUTF8

def joined (l : List Part) : ByteArray := Bytes.join (l.map bytes)

def lines : List Part → Nat
  | [] => 0
  | heading _ :: l => lines l
  | line _ :: l => lines l + 1

def failure : Part → WriteError
  | heading _ => .heading
  | line _ => .line

/-- The byte at an offset of all the bytes belongs to the part `p`. -/
def HoldsAt (l : List Part) (k : Nat) (p : Part) : Prop :=
  ∃ before after, l = before ++ p :: after ∧
    (joined before).size ≤ k ∧ k < (joined before).size + p.bytes.size

theorem joined_nil : joined [] = .empty := rfl

theorem joined_cons (p : Part) (l : List Part) : joined (p :: l) = p.bytes ++ joined l := rfl

theorem joined_append (l m : List Part) : joined (l ++ m) = joined l ++ joined m := by
  induction l with
  | nil => rw [List.nil_append, joined_nil, ByteArray.empty_append]
  | cons p l ih => rw [List.cons_append, joined_cons, joined_cons, ih, ByteArray.append_assoc]

theorem HoldsAt.lt_size {l : List Part} {k : Nat} {p : Part} (h : HoldsAt l k p) :
    k < (joined l).size := by
  obtain ⟨before, after, rfl, -, high⟩ := h
  rw [joined_append, joined_cons, ByteArray.size_append, ByteArray.size_append]
  omega

theorem holdsAt_head {p : Part} {k : Nat} (l : List Part) (h : k < p.bytes.size) :
    HoldsAt (p :: l) k p := by
  refine ⟨[], l, rfl, Nat.zero_le k, ?_⟩
  rwa [joined_nil, ByteArray.size_empty, Nat.zero_add]

theorem HoldsAt.cons {p q : Part} {l : List Part} {k : Nat} (h : q.bytes.size ≤ k)
    (hp : HoldsAt l (k - q.bytes.size) p) : HoldsAt (q :: l) k p := by
  obtain ⟨before, after, rfl, low, high⟩ := hp
  refine ⟨q :: before, after, rfl, ?_, ?_⟩
  · rw [joined_cons, ByteArray.size_append]
    omega
  · rw [joined_cons, ByteArray.size_append]
    omega

theorem extract_joined_cons {p : Part} {k : Nat} (l : List Part) (h : p.bytes.size ≤ k) :
    (joined (p :: l)).extract 0 k = p.bytes ++ (joined l).extract 0 (k - p.bytes.size) := by
  have whole : p.bytes.extract 0 k = p.bytes := by
    rw [← Nat.max_eq_left h, ByteArray.extract_zero_max_size]
  rw [joined_cons, ByteArray.extract_append, whole, Nat.zero_sub]

theorem extract_joined_of_lt {p : Part} {k : Nat} (l : List Part) (h : k < p.bytes.size) :
    (joined (p :: l)).extract 0 k = p.bytes.extract 0 k := by
  have rest : k - p.bytes.size = 0 := Nat.sub_eq_zero_of_le (Nat.le_of_lt h)
  rw [joined_cons, ByteArray.extract_append, Nat.zero_sub, rest, ByteArray.extract_same,
    ByteArray.append_empty]

/-! ### Writing parts -/

def write : List Part → Sink → Option WriteError × Sink
  | [], s => (none, s)
  | p :: l, s =>
    match s.write p.text with
    | (true, s) => write l s
    | (false, s) => (some p.failure, s)

theorem write_unlimited (l : List Part) (b : ByteArray) :
    write l { bytes := b } = (none, { bytes := b ++ joined l }) := by
  induction l generalizing b with
  | nil =>
    rw [write, joined_nil, ByteArray.append_empty]
  | cons p l ih =>
    rw [write, Printout.write_unlimited, joined_cons, ← ByteArray.append_assoc]
    exact ih _

theorem write_whole {l : List Part} {s : Sink} (h : (write l s).1 = none) :
    (write l s).2.bytes = s.bytes ++ joined l := by
  induction l generalizing s with
  | nil => rw [write, joined_nil, ByteArray.append_empty]
  | cons p l ih =>
    rw [write] at h ⊢
    rcases went : s.write p.text with ⟨_ | _, next⟩
    · rw [went] at h
      cases h
    · rw [went] at h
      rw [joined_cons, ← ByteArray.append_assoc]
      exact (ih h).trans (congrArg (· ++ joined l) (Sink.bytes_of_write went))

theorem write_limited (l : List Part) (limit : Nat) (b : ByteArray) :
    (write l { room := some limit, bytes := b }).2.bytes = b ++ (joined l).extract 0 limit ∧
    ((write l { room := some limit, bytes := b }).1 = none ∧ (joined l).size ≤ limit ∨
      ∃ p, HoldsAt l limit p ∧
        (write l { room := some limit, bytes := b }).1 = some p.failure) := by
  induction l generalizing limit b with
  | nil =>
    have none : ByteArray.empty.extract 0 limit = .empty := by simp
    rw [joined_nil, none, ByteArray.append_empty]
    exact ⟨rfl, .inl ⟨rfl, Nat.zero_le limit⟩⟩
  | cons p l ih =>
    rw [write, Sink.write]
    by_cases fits : p.bytes.size ≤ limit
    · obtain ⟨written, ending⟩ := ih (limit - p.bytes.size) (b ++ p.bytes)
      have goes : p.text.toUTF8.size ≤ limit := fits
      simp only [if_pos goes]
      refine ⟨?_, ?_⟩
      · rw [extract_joined_cons l fits, ← ByteArray.append_assoc]
        exact written
      · refine ending.imp (And.imp id fun h => ?_) ?_
        · rw [joined_cons, ByteArray.size_append]
          omega
        · rintro ⟨q, holds, failed⟩
          exact ⟨q, holds.cons fits, failed⟩
    -- The part does not fit, and the first byte left out is one of its bytes.
    · have short : limit < p.bytes.size := Nat.lt_of_not_le fits
      have stops : ¬p.text.toUTF8.size ≤ limit := fits
      simp only [if_neg stops]
      refine ⟨?_, .inr ⟨p, holdsAt_head l short, rfl⟩⟩
      rw [extract_joined_of_lt l short]
      rfl

end Part

namespace Printout

/-- The parts of rows that come after `n` others. A row that faults has no line, and none follow. -/
def partsOf : Nat → List Row → List Part
  | _, [] => []
  | n, r :: l =>
    .heading (r.headingText (n = 0)) ::
      match r.line with
      | .error _ => []
      | .ok line => .line (r.lineText line) :: partsOf (n + 1) l

def parts (l : Printout) (start : Addr) (count : Nat) : List Part := partsOf 0 (l.rows count start)

theorem writeRows_eq_write (l : List Row) (n : Nat) (sink : Sink) (log : Log) :
    (writeRows l n sink log).sink = (Part.write (partsOf n l) sink).2 ∧
    (writeRows l n sink log).count =
      match (Part.write (partsOf n l) sink).1 with
      | none => .ok (n + Part.lines (partsOf n l))
      | some e => .error e := by
  induction l generalizing n sink log with
  | nil => exact ⟨rfl, rfl⟩
  | cons r l ih =>
    rw [writeRows, partsOf, Part.write, Part.text]
    rcases sink.write (r.headingText (n = 0)) with ⟨_ | _, next⟩
    · exact ⟨rfl, rfl⟩
    · dsimp only
      cases r.line with
      | error f => exact ⟨rfl, rfl⟩
      | ok line =>
        dsimp only
        rw [Part.write, Part.text]
        rcases next.write (r.lineText line) with ⟨_ | _, last⟩
        · exact ⟨rfl, rfl⟩
        · obtain ⟨rest, count⟩ := ih (n + 1) last (log ++ r.log)
          refine ⟨rest, ?_⟩
          have one : n + 1 + Part.lines (partsOf (n + 1) l) =
              n + (Part.lines (partsOf (n + 1) l) + 1) := by omega
          rw [one] at count
          exact count

theorem write_count_eq (l : Printout) (start : Addr) (count : Nat) (sink : Sink) :
    (l.write start count sink).count =
      match (Part.write (l.parts start count) sink).1 with
      | none => .ok (Part.lines (l.parts start count))
      | some e => .error e := by
  obtain ⟨-, ending⟩ := writeRows_eq_write (l.rows count start) 0 sink #[]
  rw [Nat.zero_add] at ending
  exact ending

theorem write_sink_eq (l : Printout) (start : Addr) (count : Nat) (sink : Sink) :
    (l.write start count sink).sink = (Part.write (l.parts start count) sink).2 :=
  (writeRows_eq_write (l.rows count start) 0 sink #[]).1

/-- A sink with a limit takes the first bytes of what a sink without one takes. Writing ends well if
that is all of them; if not, what is said depends on the part that the first other byte belongs to. -/
theorem write_into_limit (l : Printout) (start : Addr) (count limit : Nat) :
    ∃ (all : ByteArray) (n : Nat), all = Part.joined (l.parts start count) ∧
      (l.write start count {}).sink.bytes = all ∧ (l.write start count {}).count = .ok n ∧
      (l.write start count { room := some limit }).sink.bytes =
        all.extract 0 (min limit all.size) ∧
      ((l.write start count { room := some limit }).count = .ok n ↔ all.size ≤ limit) ∧
      (limit < all.size → ∃ p e, Part.HoldsAt (l.parts start count) limit p ∧
        (l.write start count { room := some limit }).count = .error e ∧
        e.message =
          match p with
          | .heading _ => "writer full"
          | .line _ => "write failed: writer full") := by
  have free := Part.write_unlimited (l.parts start count) .empty
  obtain ⟨written, ending⟩ := Part.write_limited (l.parts start count) limit .empty
  rw [ByteArray.empty_append] at free written
  refine ⟨_, Part.lines (l.parts start count), rfl, ?_, ?_, ?_, ?_, ?_⟩
  · rw [write_sink_eq, free]
  · rw [write_count_eq, free]
  · rw [write_sink_eq, written]
    rcases Nat.le_total limit (Part.joined (l.parts start count)).size with le | le
    · rw [Nat.min_eq_left le]
    · rw [Nat.min_eq_right le, ByteArray.extract_zero_size, ← Nat.max_eq_left le,
        ByteArray.extract_zero_max_size]
  · rw [write_count_eq]
    rcases ending with ⟨done, fits⟩ | ⟨p, holds, failed⟩
    · rw [done]
      exact ⟨fun _ => fits, fun _ => rfl⟩
    · rw [failed]
      exact ⟨nofun, fun fits => absurd holds.lt_size (Nat.not_lt.2 fits)⟩
  · intro short
    rcases ending with ⟨-, fits⟩ | ⟨p, holds, failed⟩
    · exact absurd short (Nat.not_lt.2 fits)
    · refine ⟨p, p.failure, holds, ?_, ?_⟩
      · rw [write_count_eq, failed]
      · cases p <;> rfl

def twoSymbols : Printout where
  image := ⟨0x8000, ⟨#[0x1e, 0xff, 0x2f, 0xe1, 0x01, 0x00, 0xa0, 0xe3]⟩⟩
  symbols := some (.ofList [⟨0x8000, 4, "a"⟩, ⟨0x8004, 4, "b"⟩])
  raw := false

/-- The first line fills the sink, and the blank line before the second heading is left out. -/
theorem write_into_limit_blank :
    (twoSymbols.write 0x8000 64 {}).sink.bytes =
      "<a>:\n    8000:\tbx\tlr\n\n<b>:\n    8004:\tmov\tr0, #0x1\n".toUTF8 ∧
    (twoSymbols.write 0x8000 64 { room := some 21 }).sink.bytes =
      "<a>:\n    8000:\tbx\tlr\n".toUTF8 ∧
    ∃ text, Part.HoldsAt (twoSymbols.parts 0x8000 64) 21 (.heading text) ∧
      (twoSymbols.write 0x8000 64 { room := some 21 }).count = .error .heading := by
  obtain ⟨all, n, -, free, -, written, -, short⟩ := write_into_limit twoSymbols 0x8000 64 21
  have whole : (twoSymbols.write 0x8000 64 {}).sink.bytes =
      "<a>:\n    8000:\tbx\tlr\n\n<b>:\n    8004:\tmov\tr0, #0x1\n".toUTF8 := by decide +kernel
  have stopped : (twoSymbols.write 0x8000 64 { room := some 21 }).count = .error .heading := by
    decide +kernel
  obtain rfl := free.symm.trans whole
  obtain ⟨p, e, holds, failed, message⟩ := short (by decide +kernel)
  rw [stopped] at failed
  cases failed
  refine ⟨whole, ?_, ?_⟩
  · rw [written]
    decide +kernel
  · cases p with
    | heading text => exact ⟨text, holds, stopped⟩
    | line text =>
      have other : WriteError.heading.message = "write failed: writer full" := message
      exact absurd other (by decide)

end Printout

end Disarm
