import Disarm.Proofs.OneSession
/-!
Runs of consecutive instructions over an image. What cannot be read shows as zero, and a run goes on
past it, out of the image and around the top of the address space. Main statement: a run prints one
line for each address, in order, keeps the fault of the first address that has one, and can be cut in
two anywhere.
-/

namespace Disarm

theorem Host.fst_disassembleMany {σ : Type} (h : Host σ) (raw : Bool) (n : Nat) (start : Addr)
    (s : σ) : (h.disassembleMany raw n start s).1 = start + BitVec.ofNat 32 (4 * n) := by
  induction n generalizing start s with
  | zero => exact (BitVec.add_zero start).symm
  | succ n ih =>
    rw [← Addr.add_four_add]
    exact ih (start + 4) (h.disassemble start raw s).2

def Transcript.line (spell : Addr → String) (raw : Bool) (loc : Addr) (w : Word) : String :=
  (host.disassemble loc raw { memory := fun _ => w, spell }).2.output

theorem Transcript.line_eq (spell : Addr → String) (raw : Bool) (loc : Addr) (w : Word) :
    line spell raw loc w = Piece.render spell ((Instruction.decode loc w).pieces raw) := by
  obtain ⟨log, e⟩ := disassemble_eq loc raw { memory := fun _ => w, spell }
  rw [line, e]
  exact String.empty_append

/-! ### Reads -/

namespace Image

variable {i : Image} {a : Addr} {w : Word} {f : Option Fault}

/-- What a read of an image comes to: the word whose four bytes stand at the address, or zero and the
reason why there is none. -/
inductive Reads (i : Image) (a : Addr) : Word → Option Fault → Prop where
  | word {b₀ b₁ b₂ b₃ : UInt8} (aligned : 4 ∣ a.toNat) (above : i.base.toNat ≤ a.toNat)
      (first : Bytes.byte? i.data (a.toNat - i.base.toNat) = some b₀)
      (second : Bytes.byte? i.data (a.toNat - i.base.toNat + 1) = some b₁)
      (third : Bytes.byte? i.data (a.toNat - i.base.toNat + 2) = some b₂)
      (fourth : Bytes.byte? i.data (a.toNat - i.base.toNat + 3) = some b₃) :
      Reads i a (.ofBytes b₀ b₁ b₂ b₃) none
  | unaligned (odd : ¬4 ∣ a.toNat) : Reads i a 0 (some (.unaligned a))
  | outside (aligned : 4 ∣ a.toNat)
      (outside : a.toNat < i.base.toNat ∨ i.base.toNat + i.data.size < a.toNat + 4) :
      Reads i a 0 (some (.outOfBounds a))

theorem reads_shown (i : Image) (a : Addr) :
    i.Reads a (i.shown a) (Session.Event.fault i (.call (.read a))) := by
  by_cases aligned : 4 ∣ a.toNat
  · have even : a.Aligned := Addr.aligned_iff_dvd.2 aligned
    by_cases inside : i.HasWord a
    · obtain ⟨room, fetched⟩ := fetch_of_hasWord even inside
      rw [shown, Session.Event.fault, fetched]
      exact .word aligned (BitVec.le_def.1 inside.1) (Bytes.byte?_of_lt _) (Bytes.byte?_of_lt _)
        (Bytes.byte?_of_lt _) (Bytes.byte?_of_lt room)
    · have outside : a.toNat < i.base.toNat ∨ i.base.toNat + i.data.size < a.toNat + 4 := by
        unfold HasWord stop wordSize at inside
        rw [BitVec.le_def] at inside
        omega
      rw [shown, Session.Event.fault, fetch_of_not_hasWord even inside]
      exact .outside aligned outside
  · have odd : ¬a.Aligned := fun even => aligned (Addr.aligned_iff_dvd.1 even)
    rw [shown, Session.Event.fault, fetch_of_not_aligned odd]
    exact .unaligned aligned

theorem Reads.fault_eq_none (h : i.Reads a w f) : f = none ↔
    4 ∣ a.toNat ∧ i.base.toNat ≤ a.toNat ∧ a.toNat + 4 ≤ i.base.toNat + i.data.size := by
  cases h with
  | word aligned above _ _ _ fourth =>
    have room := Bytes.lt_size_of_byte? fourth
    exact iff_of_true rfl ⟨aligned, above, by omega⟩
  | unaligned odd => exact iff_of_false nofun fun h => odd h.1
  | outside aligned outside => exact iff_of_false nofun fun h => by omega

theorem Reads.of_not_dvd (h : i.Reads a w f) (odd : ¬4 ∣ a.toNat) : f = some (.unaligned a) := by
  cases h with
  | word aligned => exact absurd aligned odd
  | unaligned => rfl
  | outside aligned => exact absurd aligned odd

end Image

/-! ### Runs -/

theorem findSome?_range {α : Type} {f : Nat → Option α} {k n : Nat} (hk : k < n)
    (before : ∀ j < k, f j = none) (here : f k ≠ none) : (List.range n).findSome? f = f k := by
  obtain ⟨d, rfl⟩ := Nat.exists_eq_add_of_lt hk
  obtain ⟨a, ha⟩ := Option.ne_none_iff_exists'.1 here
  have front : (List.range k).findSome? f = none :=
    List.findSome?_eq_none_iff.2 fun j hj => before j (List.mem_range.1 hj)
  rw [Nat.add_assoc, List.range_add, List.findSome?_append, front, Option.none_or,
    List.range_succ_eq_map, List.map_cons, List.findSome?_cons, Nat.add_zero, ha]

namespace Session

theorem output_single_eq_line (i : Image) (t : Option SymbolTable) (raw : Bool) (loc : Addr) :
    (single i t raw loc).output =
      Transcript.line (SymbolTable.annotate t) raw loc (i.shown loc) := by
  have fetched : (fetch loc { image := i, symbols := t }).1 = i.shown loc :=
    (Reflects.start i t).fst_fetch loc
  have quiet : (fetch loc { image := i, symbols := t }).2.output = "" ∧
      (fetch loc { image := i, symbols := t }).2.symbols = t := by
    rw [fetch]
    split <;> exact ⟨rfl, rfl⟩
  change (host.emit ((Instruction.decode loc (fetch loc { image := i, symbols := t }).1).pieces raw)
    (host.noteAll _ (fetch loc { image := i, symbols := t }).2)).output = _
  rw [emit_eq, noteAll_eq_append, fetched, quiet.1, quiet.2, Transcript.line_eq]
  exact String.empty_append

/-- A run keeps the fault that was there, else the first of its reads. -/
theorem fault_disassembleMany (n : Nat) (start : Addr) (raw : Bool) (s : Session) :
    (host.disassembleMany raw n start s).2.fault =
      s.fault.or ((List.range n).findSome? fun k =>
        Event.fault s.image (.call (.read (start + BitVec.ofNat 32 (4 * k))))) := by
  induction n generalizing start s with
  | zero => exact (Option.or_none).symm
  | succ n ih =>
    change (host.disassembleMany raw n (start + 4) (host.disassemble start raw s).2).2.fault = _
    rw [ih, disassemble_eq_single, fault_single]
    simp only [Addr.add_four_add]
    rw [List.range_succ_eq_map, List.findSome?_cons, List.findSome?_map, Option.or_assoc,
      Nat.mul_zero, BitVec.add_zero]
    cases Event.fault s.image (.call (.read start)) with
    | none => rfl
    | some f => rfl

/-- From a new session on, a run prints the line of what each address shows, and the fault it leaves is
that of the first address that has one. -/
theorem disassembleMany_shows (i : Image) (t : Option SymbolTable) (log : Log) (start : Addr)
    (count : Nat) (raw : Bool) :
    ∃ (address : Nat → Addr) (word : Nat → Word) (fault : Nat → Option Fault) (s : Session),
      (∀ k, (address k).toNat = (start.toNat + 4 * k) % 2 ^ 32) ∧
      (∀ k, i.Reads (address k) (word k) (fault k)) ∧
      host.disassembleMany raw count start { image := i, symbols := t, log } =
        (address count, s) ∧
      s.image = i ∧ s.symbols = t ∧
      s.output = String.join ((List.range count).map fun k =>
        Transcript.line (SymbolTable.annotate t) raw (address k) (word k)) ∧
      (s.fault = none ↔ ∀ k < count, 4 ∣ (address k).toNat ∧
        i.base.toNat ≤ (address k).toNat ∧
        (address k).toNat + 4 ≤ i.base.toNat + i.data.size) ∧
      (∀ k < count, (∀ j < k, fault j = none) → fault k ≠ none → s.fault = fault k) ∧
      (¬4 ∣ start.toNat → 0 < count → s.fault = some (.unaligned start)) ∧
      ∀ m n (s₀ : Session), host.disassembleMany raw (m + n) start s₀ =
        host.disassembleMany raw n (host.disassembleMany raw m start s₀).1
          (host.disassembleMany raw m start s₀).2 := by
  have reads (k : Nat) := i.reads_shown (start + BitVec.ofNat 32 (4 * k))
  have ended := host.fst_disassembleMany raw count start { image := i, symbols := t, log }
  have new : Reflects i t [] { image := i, symbols := t, log } := ⟨rfl, rfl, rfl, rfl⟩
  have reflects := new.disassembleMany start count raw
  have output := output_disassembleMany count start raw { image := i, symbols := t, log }
  have fault := fault_disassembleMany count start raw { image := i, symbols := t, log }
  simp only [output_single_eq_line, String.empty_append] at output
  rw [Option.none_or] at fault
  refine ⟨fun k => start + BitVec.ofNat 32 (4 * k), _, _, _, fun k => ?_, reads, Prod.ext ended rfl,
    reflects.image, reflects.symbols, output, ?_, ?_, ?_,
    fun m n s₀ => host.disassembleMany_add raw m n start s₀⟩
  · rw [BitVec.toNat_add, BitVec.toNat_ofNat, Nat.add_mod_mod]
  · rw [fault, List.findSome?_eq_none_iff]
    simp only [List.mem_range, (reads _).fault_eq_none]
  · intro k hk before here
    exact fault.trans (findSome?_range hk before here)
  · intro odd positive
    have first : Event.fault i (.call (.read (start + BitVec.ofNat 32 (4 * 0)))) =
        some (.unaligned start) := by
      rw [Nat.mul_zero, BitVec.add_zero]
      exact (i.reads_shown start).of_not_dvd odd
    rw [fault, findSome?_range positive nofun (by rw [first]; nofun)]
    exact first

def bottomImage : Image := ⟨0, ⟨#[0x1e, 0xff, 0x2f, 0xe1, 0xfd, 0xff, 0xff, 0xea, 7]⟩⟩

/-- A run comes from below the image's base over the top of the address space, goes through the image
and leaves it again. The first of its two faults stays. -/
theorem disassembleMany_shows_around : ∃ s,
    host.disassembleMany false 4 0xfffffffc
      { image := bottomImage, symbols := some (.ofList [⟨0, 4, "ret"⟩]) } = (0xc, s) ∧
    s.output = "andeq\tr0, r0, r0\nbx\tlr\nb\t0x00000000 <ret>\nandeq\tr0, r0, r0\n" ∧
    s.fault = some (.outOfBounds 0xfffffffc) ∧
    (host.disassembleMany false 4 0xfffffffe { image := bottomImage }).2.fault =
      some (.unaligned 0xfffffffe) ∧
    host.disassembleMany false 4 0xfffffffc { image := bottomImage } =
      host.disassembleMany false 3 0
        (host.disassembleMany false 1 0xfffffffc { image := bottomImage }).2 := by
  obtain ⟨address, word, fault, s, places, reads, run, -, -, -, -, first, -, cut⟩ :=
    disassembleMany_shows bottomImage (some (.ofList [⟨0, 4, "ret"⟩])) #[] 0xfffffffc 4 false
  obtain ⟨_, _, _, u, -, -, stray, -, -, -, -, -, odd, -⟩ :=
    disassembleMany_shows bottomImage none #[] 0xfffffffe 4 false
  have top : address 0 = 0xfffffffc := BitVec.eq_of_toNat_eq (places 0)
  have refused : fault 0 = some (.outOfBounds 0xfffffffc) := by
    have read := reads 0
    rw [top] at read
    generalize word 0 = w, fault 0 = f at read
    cases read with
    | word _ _ first => exact absurd (Bytes.lt_size_of_byte? first) (by decide)
    | unaligned odd => exact absurd (by decide) odd
    | outside => rfl
  have kept : s.fault = fault 0 := first 0 (by decide) nofun (by rw [refused]; nofun)
  have ended : address 4 = 0xc := BitVec.eq_of_toNat_eq (places 4)
  refine ⟨s, run.trans (congrArg (·, s) ended), ?_, kept.trans refused, ?_, ?_⟩
  · obtain rfl : _ = s := congrArg Prod.snd run
    decide +kernel
  · rw [stray]
    exact odd (by decide) (by decide)
  · rw [cut 1 3]
    rfl

end Session

end Disarm
