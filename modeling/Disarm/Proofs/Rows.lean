import Disarm.Printout
import Disarm.Proofs.Recording
import Disarm.Proofs.ByteStrings
import Mathlib.Algebra.Ring.Nat
/-!
Listings step by step. From an aligned address on no row faults, so that a listing goes on until the
image, the address space or the count ends it. Main statement: what is written is the text of the
rows, one after the other.
-/

namespace Disarm

/-! ### Addresses of words -/

namespace Addr

variable {a : Addr}

theorem aligned_iff : a.Aligned ↔ a.toNat % 4 = 0 := by
  unfold Aligned
  rw [← BitVec.toNat_inj, BitVec.extractLsb'_toNat, Nat.shiftRight_zero]
  rfl

theorem aligned_iff_dvd : a.Aligned ↔ 4 ∣ a.toNat := by
  rw [aligned_iff, Nat.dvd_iff_mod_eq_zero]

theorem add_four_add (a : Addr) (k : Nat) :
    a + 4 + BitVec.ofNat 32 (4 * k) = a + BitVec.ofNat 32 (4 * (k + 1)) := by
  rw [BitVec.add_assoc, Nat.mul_succ, Nat.add_comm, BitVec.ofNat_add]
  rfl

theorem toNat_add_four (h : a < a + 4) : (a + 4).toNat = a.toNat + 4 := by
  have lt := BitVec.lt_def.1 h
  rw [BitVec.toNat_add] at lt ⊢
  change a.toNat < (a.toNat + 4) % 2 ^ 32 at lt
  change (a.toNat + 4) % 2 ^ 32 = a.toNat + 4
  have := a.isLt
  omega

theorem toNat_of_top (aligned : a.Aligned) (top : ¬a < a + 4) : a.toNat = 2 ^ 32 - 4 := by
  have multiple := aligned_iff.1 aligned
  have wraps : ¬a.toNat < (a + 4).toNat := fun lt => top (BitVec.lt_def.2 lt)
  rw [BitVec.toNat_add] at wraps
  change ¬a.toNat < (a.toNat + 4) % 2 ^ 32 at wraps
  have := a.isLt
  omega

theorem Aligned.add_four (aligned : a.Aligned) (h : a < a + 4) : (a + 4).Aligned := by
  have multiple := aligned_iff.1 aligned
  rw [aligned_iff, toNat_add_four h]
  omega

theorem Aligned.add_mul (aligned : a.Aligned) (k : Nat) : (a + BitVec.ofNat 32 (4 * k)).Aligned := by
  have multiple := aligned_iff.1 aligned
  rw [aligned_iff, BitVec.toNat_add, BitVec.toNat_ofNat]
  omega

theorem toNat_add_mul {k : Nat} (h : a.toNat + 4 * k < 2 ^ 32) :
    (a + BitVec.ofNat 32 (4 * k)).toNat = a.toNat + 4 * k := by
  rw [BitVec.toNat_add, BitVec.toNat_ofNat]
  omega

end Addr

/-! ### Which rows there are -/

namespace Image

variable {i : Image} {a : Addr} {n : Nat}

/-- The number of words from an address on, at most `n`. -/
def wordsFrom (i : Image) (a : Addr) (n : Nat) : Nat :=
  if i.base ≤ a ∧ a.toNat ≤ i.stop then min n ((min i.stop (2 ^ 32) - a.toNat) / wordSize) else 0

theorem exists_fetch (aligned : a.Aligned) (h : i.HasWord a) : ∃ w, i.fetch a = .ok w := by
  obtain ⟨above, below⟩ := h
  have distance : (a - i.base).toNat = a.toNat - i.base.toNat := BitVec.toNat_sub_of_le above
  have low : i.base.toNat ≤ a.toNat := BitVec.le_def.1 above
  have present : ∀ k < 4, Bytes.byte? i.data ((a - i.base).toNat + k) =
      some ((Bytes.byte? i.data ((a - i.base).toNat + k)).getD 0) := by
    intro k hk
    have inside : (a - i.base).toNat + k < i.data.size := by
      unfold stop wordSize at below
      omega
    rw [Bytes.byte?_of_lt inside, Option.getD_some]
  exact ⟨_, fetch_eq_ok aligned above present⟩

theorem wordsFrom_of_not_hasWord (h : ¬i.HasWord a) : i.wordsFrom a n = 0 := by
  unfold wordsFrom
  split
  · next bounds =>
    have short : ¬a.toNat + wordSize ≤ i.stop := fun below => h ⟨bounds.1, below⟩
    unfold wordSize at short ⊢
    omega
  · rfl

theorem wordsFrom_succ (h : i.HasWord a) (next : a < a + 4) :
    i.wordsFrom a (n + 1) = i.wordsFrom (a + 4) n + 1 := by
  obtain ⟨above, below⟩ := h
  have here := Addr.toNat_add_four next
  have bound := (a + 4).isLt
  have low : i.base.toNat ≤ a.toNat := BitVec.le_def.1 above
  have above' : i.base ≤ a + 4 := BitVec.le_def.2 (by omega)
  unfold wordSize at below
  unfold wordsFrom wordSize
  rw [if_pos ⟨above, by omega⟩, if_pos ⟨above', by omega⟩, here]
  rw [here] at bound
  omega

theorem wordsFrom_succ_of_top (aligned : a.Aligned) (h : i.HasWord a) (top : ¬a < a + 4) :
    i.wordsFrom a (n + 1) = 1 := by
  obtain ⟨above, below⟩ := h
  have here := Addr.toNat_of_top aligned top
  unfold wordSize at below
  unfold wordsFrom wordSize
  rw [if_pos ⟨above, by omega⟩, here]
  omega

theorem hasWord_of_lt_wordsFrom {k : Nat} (h : k < i.wordsFrom a n) :
    (a + BitVec.ofNat 32 (4 * k)).toNat = a.toNat + 4 * k ∧
      i.HasWord (a + BitVec.ofNat 32 (4 * k)) := by
  unfold wordsFrom at h
  split at h
  · next bounds =>
    have low := BitVec.le_def.1 bounds.1
    unfold wordSize at h
    have here := Addr.toNat_add_mul (a := a) (k := k) (by omega)
    refine ⟨here, BitVec.le_def.2 ?_, ?_⟩
    · omega
    · rw [here]
      unfold wordSize
      omega
  · exact absurd h (Nat.not_lt_zero k)

end Image

namespace Printout

variable {l : Printout} {loc : Addr}

theorem row_of_fetch {w : Word} (h : l.image.fetch loc = .ok w) :
    ∃ log, l.row loc =
      { loc
        heading := l.symbols.bind (·.get? loc)
        line := .ok (Piece.render (SymbolTable.annotate l.symbols)
          ((Instruction.decode loc w).pieces l.raw))
        log } := by
  obtain ⟨log, e⟩ := Session.disassemble_eq
    (s := { image := l.image, symbols := l.symbols }) l.raw h
  refine ⟨log, ?_⟩
  rw [row, e]
  simp only [String.empty_append]

/-- The rows from an aligned address on stand at consecutive words. -/
theorem rows_eq (n : Nat) (aligned : loc.Aligned) :
    l.rows n loc =
      (List.range (l.image.wordsFrom loc n)).map fun k => l.row (loc + BitVec.ofNat 32 (4 * k)) := by
  induction n generalizing loc with
  | zero =>
    have none : l.image.wordsFrom loc 0 = 0 := by
      unfold Image.wordsFrom
      split
      · exact Nat.zero_min _
      · rfl
    rw [rows, none, List.range_zero, List.map_nil]
  | succ n ih =>
    rw [rows]
    by_cases inside : l.image.HasWord loc
    · obtain ⟨w, hw⟩ := Image.exists_fetch aligned inside
      obtain ⟨log, hrow⟩ := row_of_fetch hw
      have good : (l.row loc).line.toOption.isSome := by
        rw [hrow]
        rfl
      rw [if_pos inside]
      dsimp only
      by_cases next : loc < loc + 4
      · rw [if_pos ⟨good, next⟩, ih (aligned.add_four next), Image.wordsFrom_succ inside next,
          List.range_succ_eq_map, List.map_cons, List.map_map]
        congr 2
        -- The first row stands at `loc` itself, and every later one moves down by one place.
        · simp
        · funext k
          exact congrArg l.row (loc.add_four_add k)
      -- Past the top the next address would be zero, and the listing ends after this row.
      · rw [if_neg fun h => next h.2, Image.wordsFrom_succ_of_top aligned inside next]
        simp
    · rw [if_neg inside, Image.wordsFrom_of_not_hasWord inside, List.range_zero, List.map_nil]

/-! ### What is written -/

theorem write_unlimited (t : String) (b : ByteArray) :
    Sink.write t { bytes := b } = (true, { bytes := b ++ t.toUTF8 }) := rfl

/-- The text of one step of a listing. A symbol that starts at the address makes a heading, which a
blank line sets off unless it is the first thing in the listing. -/
def stepText (symbols : Option SymbolTable) (raw first : Bool) (loc : Addr) (w : Word) : String :=
  (match symbols.bind (·.get? loc) with
    | none => ""
    | some name => (if first then "" else "\n") ++ "<" ++ name ++ ">:\n") ++
  (Hex.aligned 8 loc.toNat ++ ":\t" ++
    Piece.render (SymbolTable.annotate symbols) ((Instruction.decode loc w).pieces raw))

theorem text_row {w : Word} (h : l.image.fetch loc = .ok w) (first : Bool) :
    ∃ line, (l.row loc).line = .ok line ∧
      (l.row loc).headingText first ++ (l.row loc).lineText line =
        stepText l.symbols l.raw first loc w := by
  obtain ⟨log, e⟩ := row_of_fetch h
  rw [e]
  exact ⟨_, rfl, rfl⟩

theorem writeRows_eq (row : Nat → Row) (text : Nat → String) {n : Nat} (j : Nat) (b : ByteArray)
    (log : Log) (h : ∀ k, j ≤ k → k < j + n → ∃ line, (row k).line = .ok line ∧
      (row k).headingText (k = 0) ++ (row k).lineText line = text k) :
    ∃ log', writeRows ((List.range' j n).map row) j { bytes := b } log =
      ⟨.ok (j + n), { bytes := b ++ (String.join ((List.range' j n).map text)).toUTF8 }, log'⟩ := by
  induction n generalizing j b log with
  | zero =>
    refine ⟨log, ?_⟩
    rw [List.range'_zero, List.map_nil, writeRows, List.map_nil, String.join_nil]
    simp
  | succ n ih =>
    obtain ⟨line, hline, htext⟩ := h j (Nat.le_refl j) (by omega)
    obtain ⟨log', e⟩ := ih (j + 1)
      (b ++ ((row j).headingText (j = 0)).toUTF8 ++ ((row j).lineText line).toUTF8)
      (log ++ (row j).log) fun k low high => h k (by omega) (by omega)
    refine ⟨log', ?_⟩
    rw [List.range'_succ, List.map_cons, writeRows]
    simp only [write_unlimited, hline]
    rw [e, List.map_cons, String.join_cons, ← htext]
    simp only [String.toUTF8_eq_toByteArray, String.toByteArray_append, ByteArray.append_assoc,
      Nat.add_comm n 1, Nat.add_assoc]

theorem write_eq {start : Addr} {word : Nat → Word} (n : Nat) (aligned : start.Aligned)
    (h : ∀ k < l.image.wordsFrom start n,
      l.image.fetch (start + BitVec.ofNat 32 (4 * k)) = .ok (word k)) :
    ∃ log, l.write start n {} =
      ⟨.ok (l.image.wordsFrom start n), { bytes := (String.join
        ((List.range (l.image.wordsFrom start n)).map fun k =>
          stepText l.symbols l.raw (k = 0) (start + BitVec.ofNat 32 (4 * k)) (word k))).toUTF8 },
        log⟩ := by
  obtain ⟨log, e⟩ := writeRows_eq (fun k => l.row (start + BitVec.ofNat 32 (4 * k)))
    (fun k => stepText l.symbols l.raw (k = 0) (start + BitVec.ofNat 32 (4 * k)) (word k))
    (n := l.image.wordsFrom start n) 0 .empty #[] fun k _ hk => text_row (h k (by omega)) (k = 0)
  refine ⟨log, ?_⟩
  rw [write, rows_eq n aligned, List.range_eq_range', e]
  simp

end Printout

end Disarm
