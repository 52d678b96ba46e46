import Disarm.Proofs.FrontEnds
import Disarm.Proofs.OneSession
import Disarm.Proofs.Placement
/-!
The first instruction of bytes. They are mapped at the address itself, so that nothing lies outside
of them, and no more of them than a word is. Main statement: the length is checked before the
address, and otherwise the text is the line that every image with the word at the address prints.
-/

namespace Disarm

/-! ### Words in front -/

namespace Bytes

variable {b c : ByteArray} {n : Nat}

theorem exists_holds {i : Nat} (room : i + 4 ≤ b.size) : ∃ w, Holds b i w := by
  have byte (k : Nat) (hk : k < 4) : byte? b (i + k) = some b[i + k] := byte?_of_lt (by omega)
  obtain ⟨h₀, h₁, h₂, h₃⟩ := Word.byte_ofBytes b[i] b[i + 1] b[i + 2] b[i + 3]
  refine ⟨.ofBytes b[i] b[i + 1] b[i + 2] b[i + 3], fun k hk => ?_⟩
  rw [byte k hk, Option.some_inj]
  match k, hk with
  | 0, _ => exact h₀.symm
  | 1, _ => exact h₁.symm
  | 2, _ => exact h₂.symm
  | 3, _ => exact h₃.symm

theorem extract_congr (same : ∀ k < n, byte? b k = byte? c k) : b.extract 0 n = c.extract 0 n := by
  apply ext_byte?
  intro k
  rw [byte?_extract, byte?_extract, Nat.zero_add]
  split
  · next inside => exact same k inside
  · rfl

end Bytes

/-! ### Length and alignment -/

variable {pc : Addr} {data : ByteArray}

theorem disassembleBytes_of_short (short : data.size < 4) :
    (disassembleBytes pc data).1 = .error (.truncated pc 4 data.size) :=
  congrArg Prod.fst (if_pos short)

theorem disassembleBytes_of_unaligned (long : 4 ≤ data.size) (astray : ¬4 ∣ pc.toNat) :
    (disassembleBytes pc data).1 = .error (.unaligned pc) := by
  have fault : (Session.single ⟨pc, data.extract 0 wordSize⟩ none false pc).fault =
      some (.unaligned pc) := by
    rw [Session.fault_single, Session.Event.fault,
      Image.fetch_of_not_aligned fun aligned => astray (Addr.aligned_iff_dvd.1 aligned)]
  have room : ¬data.size < wordSize := Nat.not_lt.2 long
  unfold Session.single at fault
  rw [disassembleBytes, if_neg room]
  simp only [fault]

theorem disassembleBytes_of_holds {w : Word} (aligned : 4 ∣ pc.toNat)
    (holds : Bytes.Holds data 0 w) : (disassembleBytes pc data).1 =
      .ok (Piece.render (fun a => Hex.marked a.toNat) ((Instruction.decode pc w).body false)) := by
  obtain ⟨text, done, line⟩ := disassembleBytes_eq (Addr.aligned_iff_dvd.2 aligned) holds
  rw [Call.spelled_printed, Instruction.pieces_eq_body, Piece.render_append] at line
  rw [done, (String.append_left_inj _).1 line]

theorem disassembleBytes_congr {other : ByteArray} (long : 4 ≤ data.size) (long' : 4 ≤ other.size)
    (same : ∀ k < 4, Bytes.byte? data k = Bytes.byte? other k) :
    disassembleBytes pc data = disassembleBytes pc other := by
  have front : data.extract 0 wordSize = other.extract 0 wordSize := Bytes.extract_congr same
  have room : ¬data.size < wordSize := Nat.not_lt.2 long
  have room' : ¬other.size < wordSize := Nat.not_lt.2 long'
  rw [disassembleBytes, disassembleBytes, if_neg room, if_neg room', front]

/-! ### Results -/

/-- What the first instruction of bytes comes to. -/
inductive ComesTo (pc : Addr) (data : ByteArray) : Except Fault (String × Nat) → Prop where
  | truncated (short : data.size < 4) : ComesTo pc data (.error (.truncated pc 4 data.size))
  | unaligned (long : 4 ≤ data.size) (astray : ¬4 ∣ pc.toNat) :
    ComesTo pc data (.error (.unaligned pc))
  | line {text : String} (long : 4 ≤ data.size) (aligned : 4 ∣ pc.toNat)
    (body : ∀ w, Bytes.Holds data 0 w →
      text = Piece.render (fun a => Hex.marked a.toNat) ((Instruction.decode pc w).body false)) :
    ComesTo pc data (.ok (text, 4))

section ComesTo

variable {r : Except Fault (String × Nat)} (h : ComesTo pc data r)
include h

theorem ComesTo.eq_truncated_iff : r = .error (.truncated pc 4 data.size) ↔ data.size < 4 := by
  cases h with
  | truncated short => exact iff_of_true rfl short
  | unaligned long => exact iff_of_false nofun (Nat.not_lt.2 long)
  | line long => exact iff_of_false nofun (Nat.not_lt.2 long)

theorem ComesTo.eq_unaligned_iff :
    r = .error (.unaligned pc) ↔ 4 ≤ data.size ∧ ¬4 ∣ pc.toNat := by
  cases h with
  | truncated short => exact iff_of_false nofun fun other => Nat.not_le.2 short other.1
  | unaligned long astray => exact iff_of_true rfl ⟨long, astray⟩
  | line long aligned => exact iff_of_false nofun fun other => other.2 aligned

theorem ComesTo.exists_eq_ok_iff :
    (∃ text, r = .ok (text, 4)) ↔ 4 ≤ data.size ∧ 4 ∣ pc.toNat := by
  cases h with
  | truncated short => exact iff_of_false nofun fun other => Nat.not_le.2 short other.1
  | unaligned long astray => exact iff_of_false nofun fun other => astray other.2
  | line long aligned => exact iff_of_true ⟨_, rfl⟩ ⟨long, aligned⟩

theorem ComesTo.ne_outOfBounds (a : Addr) : r ≠ .error (.outOfBounds a) := by
  cases h <;> exact nofun

omit h in
theorem ComesTo.prints {text : String} {n : Nat} (h : ComesTo pc data (.ok (text, n))) :
    '\n' ∉ text.toList ∧ ∀ (i : Image) (w : Word), Bytes.Holds data 0 w → i.base ≤ pc →
      Bytes.Holds i.data (pc - i.base).toNat w →
        ∃ log, Session.host.disassemble pc false { image := i } =
          (pc + 4, { image := i, output := text ++ "\n", log }) := by
  cases h with
  | line long aligned body =>
    obtain ⟨v, holds⟩ := Bytes.exists_holds (i := 0) long
    refine ⟨fun lineEnd => ?_, fun i w hw above shown => ?_⟩
    · rw [body v holds] at lineEnd
      exact Instruction.over_body_text pc v false _ lineEnd rfl
    · have fetched := i.fetch_of_holds (Addr.aligned_iff_dvd.2 aligned) above shown
      obtain ⟨log, printed⟩ := Session.disassemble_spelled false fetched
      refine ⟨log, Prod.ext (by rw [Host.disassemble_eq_replay]) ?_⟩
      rw [printed, body w hw, Call.spelled_printed, Instruction.pieces_eq_body,
        Piece.render_append]
      rfl

end ComesTo

theorem comesTo_disassembleFirst (pc : Addr) (data : ByteArray) :
    ComesTo pc data (disassembleFirst pc data).1 := by
  change ComesTo pc data ((disassembleBytes pc data).1.map fun text => (text, 4))
  by_cases short : data.size < 4
  · rw [disassembleBytes_of_short short]
    exact .truncated short
  · have long := Nat.not_lt.1 short
    by_cases aligned : 4 ∣ pc.toNat
    · obtain ⟨w, holds⟩ := Bytes.exists_holds (i := 0) long
      rw [disassembleBytes_of_holds aligned holds]
      -- The word in front is told from its bytes alone, so any word they hold gives the same text.
      refine .line long aligned fun v hv => ?_
      have same := (disassembleBytes_of_holds aligned holds).symm.trans
        (disassembleBytes_of_holds aligned hv)
      exact Except.ok.inj same
    · rw [disassembleBytes_of_unaligned long aligned]
      exact .unaligned long aligned

/-- Too few bytes are refused at every address, and enough of them only at one that is no multiple
of four; what follows the fourth byte does not matter. The text with one line end is what an image
prints that has the word of these bytes at the address. -/
theorem disassembleFirst_shows (pc : Addr) (data : ByteArray) :
    ((disassembleFirst pc data).1 = .error (.truncated pc 4 data.size) ↔ data.size < 4) ∧
    ((disassembleFirst pc data).1 = .error (.unaligned pc) ↔ 4 ≤ data.size ∧ ¬4 ∣ pc.toNat) ∧
    ((∃ text, (disassembleFirst pc data).1 = .ok (text, 4)) ↔
      4 ≤ data.size ∧ 4 ∣ pc.toNat) ∧
    (∀ a, (disassembleFirst pc data).1 ≠ .error (.outOfBounds a)) ∧
    (∀ other : ByteArray, 4 ≤ data.size → 4 ≤ other.size →
      (∀ k < 4, Bytes.byte? data k = Bytes.byte? other k) →
        disassembleFirst pc data = disassembleFirst pc other) ∧
    ∀ text n, (disassembleFirst pc data).1 = .ok (text, n) → '\n' ∉ text.toList ∧
      ∀ (i : Image) (w : Word), Bytes.Holds data 0 w → i.base ≤ pc →
        Bytes.Holds i.data (pc - i.base).toNat w →
          ∃ log, Session.host.disassemble pc false { image := i } =
            (pc + 4, { image := i, output := text ++ "\n", log }) := by
  have result := comesTo_disassembleFirst pc data
  refine ⟨result.eq_truncated_iff, result.eq_unaligned_iff, result.exists_eq_ok_iff,
    result.ne_outOfBounds, fun other long long' same => ?_, fun text n done => ?_⟩
  · unfold disassembleFirst
    rw [disassembleBytes_congr long long' same]
  · rw [done] at result
    exact result.prints

/-- At the top of the address space the first four of five bytes print the line that is printed
where they are the end of an image, and three bytes are too few before the address is looked at. -/
theorem disassembleFirst_shows_at_top :
    (disassembleFirst 0xfffffffc ⟨#[0xfe, 0xff, 0xff, 0xea, 7]⟩).1 = .ok ("b\t0xfffffffc", 4) ∧
    (∃ log, Session.host.disassemble 0xfffffffc false
        { image := ⟨0xfffffff8, ⟨#[1, 2, 3, 4, 0xfe, 0xff, 0xff, 0xea]⟩⟩ } =
      (0, { image := ⟨0xfffffff8, ⟨#[1, 2, 3, 4, 0xfe, 0xff, 0xff, 0xea]⟩⟩
            output := "b\t0xfffffffc" ++ "\n", log })) ∧
    disassembleFirst 0xfffffffc ⟨#[0xfe, 0xff, 0xff, 0xea, 7]⟩ =
      disassembleFirst 0xfffffffc ⟨#[0xfe, 0xff, 0xff, 0xea]⟩ ∧
    (disassembleFirst 0xfffffffd ⟨#[1, 2, 3]⟩).1 = .error (.truncated 0xfffffffd 4 3) ∧
    (disassembleFirst 0xfffffffd ⟨#[1, 2, 3, 4]⟩).1 = .error (.unaligned 0xfffffffd) := by
  obtain ⟨-, -, -, -, front, line⟩ :=
    disassembleFirst_shows 0xfffffffc ⟨#[0xfe, 0xff, 0xff, 0xea, 7]⟩
  have done : (disassembleFirst 0xfffffffc ⟨#[0xfe, 0xff, 0xff, 0xea, 7]⟩).1 =
      .ok ("b\t0xfffffffc", 4) := by
    decide +kernel
  have holds : Bytes.Holds ⟨#[0xfe, 0xff, 0xff, 0xea, 7]⟩ 0 0xeafffffe := by
    unfold Bytes.Holds
    decide
  have shown : Bytes.Holds ⟨#[1, 2, 3, 4, 0xfe, 0xff, 0xff, 0xea]⟩
      ((0xfffffffc : Addr) - 0xfffffff8).toNat 0xeafffffe := by
    unfold Bytes.Holds
    decide
  refine ⟨done, ?_, front _ (by decide) (by decide) (by decide),
    (disassembleFirst_shows _ ⟨#[1, 2, 3]⟩).1.2 (by decide),
    (disassembleFirst_shows _ ⟨#[1, 2, 3, 4]⟩).2.1.2 (by decide)⟩
  exact (line _ _ done).2 ⟨0xfffffff8, ⟨#[1, 2, 3, 4, 0xfe, 0xff, 0xff, 0xea]⟩⟩ 0xeafffffe holds
    (by decide) shown

end Disarm
