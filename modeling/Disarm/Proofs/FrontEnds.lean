import Disarm.Host.Callbacks
import Disarm.Proofs.ByteStrings
import Disarm.Proofs.Hexadecimal
import Disarm.Proofs.Recording
import Disarm.Proofs.Visible
/-!
The front ends of disassembly. A table of callbacks goes through the record of an instruction without
losing text, and the console, an image and bytes on their own write the record down. Main statement:
for one word at one address they agree.
-/

namespace Disarm

open Text

/-! ### Text -/

def LineChar (c : Char) : Prop := Visible c ∨ c = '\t'

theorem LineChar.ne_lineEnd {c : Char} (h : LineChar c) : c ≠ '\n' := by
  rintro rfl
  rcases h with h | h <;> exact absurd h (by decide)

namespace Piece

theorem render_append (f : Addr → String) (l m : List Piece) :
    render f (l ++ m) = render f l ++ render f m := by
  induction l with
  | nil => simp [render]
  | cons p l ih => cases p <;> simp [render, ih, String.append_assoc]

theorem over_render {p : Char → Prop} {f : Addr → String} {l : List Piece}
    (hf : ∀ a, Text.Over p (f a)) (hl : ∀ q ∈ l, q.Over p) : Text.Over p (render f l) := by
  induction l with
  | nil => exact over_empty
  | cons q l ih =>
    have rest := ih fun r hr => hl r (List.mem_cons_of_mem q hr)
    cases q with
    | text s => exact over_append.2 ⟨hl _ List.mem_cons_self, rest⟩
    | address a => exact over_append.2 ⟨hf a, rest⟩

end Piece

namespace Instruction

theorem pieces_eq_body (i : Instruction) (raw : Bool) :
    i.pieces raw = i.body raw ++ [.text "\n"] := rfl

theorem over_body (loc : Addr) (w : Word) (raw : Bool) :
    ∀ p ∈ (decode loc w).body raw, p.Over LineChar := by
  refine Piece.over_iff.2 fun c hc => ?_
  rw [signs_body] at hc
  rcases List.mem_append.1 hc with hc | hc
  · have column : Over LineChar (Hex.padded 8 w.toNat ++ "\t") :=
      over_append.2 ⟨(over_padded 8 _).mono fun _ hc => .inl hc.visible,
        fun _ hc => .inr (List.mem_singleton.1 hc)⟩
    split at hc
    · exact column c (Sign.char_mem_map.1 hc)
    · exact absurd hc List.not_mem_nil
  · rcases List.mem_append.1 hc with hc | hc
    · exact .inl (Entry.over_mnemonic w w c (Sign.char_mem_map.1 hc)).visible
    · rcases List.mem_cons.1 hc with e | hc
      · exact .inr (Sign.char.inj e)
      · exact .inl (Piece.over_iff.1 (decode loc w).over_fusedOperands c hc)

end Instruction

namespace Call

def output (f : Addr → String) : List Call → String
  | [] => ""
  | .text s :: l => s ++ output f l
  | .address a :: l => f a ++ output f l
  | .read _ :: l => output f l

theorem output_map_call (f : Addr → String) (l : List Piece) :
    output f (l.map Piece.call) = Piece.render f l := by
  induction l with
  | nil => rfl
  | cons p l ih => cases p <;> simp [Piece.call, output, Piece.render, ih]

/-- The text of a record with the mark and eight digits for every address. -/
def spelled (l : List Call) : String :=
  output (fun a => "0x" ++ String.ofList (Hex.places 8 a.toNat)) l

theorem spelled_printed (loc : Addr) (w : Word) (raw : Bool) :
    spelled (Recorder.printed loc w raw) =
      Piece.render (fun a => Hex.marked a.toNat) ((Instruction.decode loc w).pieces raw) := by
  rw [spelled, Recorder.printed_eq, output_map_call]
  congr
  ext a
  rw [Hex.marked_eq_places]

end Call

/-! ### Tables of callbacks -/

namespace Callbacks

variable {σ : Type}

theorem replay_passText (h : Host σ) (l : List Call)
    (hl : ∀ t, .text t ∈ l → Terminable t) (s : σ) :
    { h with write := passText h.write : Host σ }.replay l s = h.replay l s := by
  induction l generalizing s with
  | nil => rfl
  | cons c l ih =>
    have rest := ih fun t ht => hl t (List.mem_cons_of_mem c ht)
    cases c with
    | read a => exact rest _
    | address a => exact rest _
    | text t =>
      have ht : passText h.write t s = h.write t s := if_pos (hl t List.mem_cons_self)
      rw [Host.replay, Host.replay, rest, ← ht]

theorem terminable_printed (loc : Addr) (w : Word) (raw : Bool) (t : String)
    (ht : .text t ∈ Recorder.printed loc w raw) : Terminable t := by
  rw [Recorder.printed_eq, Instruction.pieces_eq_body] at ht
  obtain ⟨p, hp, e⟩ := List.mem_map.1 ht
  rcases List.mem_append.1 hp with hp | hp
  · have visible := Instruction.over_body loc w raw p hp
    cases p with
    | address a => cases e
    | text s =>
      cases e
      intro zero
      rcases visible _ zero with h | h <;> exact absurd h (by decide)
  · cases List.mem_singleton.1 hp
    cases e
    decide

theorem disassemble_complete (h : Host σ) (L : Location) (flag : Int) (s : σ) :
    disassemble (some ⟨some h.fetch, some h.writeAddress, some h.write⟩) h.note L flag s =
      (L + 4, (h.disassemble (L.setWidth 32) (flag != 0) s).2) := by
  have lossless := replay_passText h _
    (terminable_printed (L.setWidth 32) (h.fetch (L.setWidth 32) s).1 (flag != 0))
  unfold disassemble host?
  simp only [Option.bind_some]
  rw [Host.disassemble_eq_replay, Host.disassemble_eq_replay]
  simp only [lossless]
  rfl

theorem disassemble_incomplete (table : Option (Callbacks σ)) (note : LogEvent → σ → σ)
    (L : Location) (flag : Int) (s : σ)
    (h : ∀ c ∈ table, c.fetch = none ∨ c.writeAddress = none ∨ c.write = none) :
    disassemble table note L flag s = (L, s) := by
  have none : table.bind (·.host? note) = none := by
    cases table with
    | none => rfl
    | some c => rcases h c rfl with h | h | h <;> simp [host?, h]
  rw [disassemble, none]

end Callbacks

/-! ### Bytes -/

namespace Bytes

/-- The bytes of a word stand at an offset, the least significant one first. -/
def Holds (b : ByteArray) (i : Nat) (w : Word) : Prop := ∀ k < 4, byte? b (i + k) = some (w.byte k)

end Bytes

/-! ### Text of one instruction -/

theorem withoutLineEnd_append {s : String} (h : Over (· ≠ '\n') s) :
    withoutLineEnd (s ++ "\n") = s := by
  have inner : s.toList.reverse.dropWhile (fun c => decide (c = '\n')) = s.toList.reverse := by
    cases e : s.toList.reverse with
    | nil => rfl
    | cons c l =>
      have hc : c ≠ '\n' := h c (List.mem_reverse.1 (e ▸ List.mem_cons_self))
      rw [List.dropWhile_cons_of_neg (by simpa using hc)]
  rw [withoutLineEnd, String.toList_append, List.reverse_append]
  change String.ofList (List.dropWhile _ s.toList.reverse).reverse = s
  rw [inner, List.reverse_reverse, String.ofList_toList]

theorem Image.fetch_of_holds {i : Image} {loc : Addr} {w : Word} (aligned : loc.Aligned)
    (hb : i.base ≤ loc) (hw : Bytes.Holds i.data (loc - i.base).toNat w) :
    i.fetch loc = .ok w := by
  rw [fetch_eq_ok aligned hb hw, w.ofBytes_byte]

theorem annotate_none : SymbolTable.annotate none = fun a => Hex.marked a.toNat := by
  funext a
  simp [SymbolTable.annotate]

theorem Instruction.over_body_text (loc : Addr) (w : Word) (raw : Bool) :
    Over (· ≠ '\n') (Piece.render (fun a => Hex.marked a.toNat) ((decode loc w).body raw)) := by
  apply Over.mono (p := LineChar) ?_ fun _ => LineChar.ne_lineEnd
  apply Piece.over_render ?_ (over_body loc w raw)
  exact fun a => (over_marked a.toNat).mono fun _ hc => .inl hc.visible

theorem Session.disassemble_spelled {i : Image} {loc : Addr} {w : Word} (raw : Bool)
    (h : i.fetch loc = .ok w) :
    ∃ log, (host.disassemble loc raw { image := i }).2 =
      { image := i, output := Call.spelled (Recorder.printed loc w raw), log } := by
  obtain ⟨log, e⟩ := disassemble_eq (s := { image := i }) raw h
  refine ⟨log, ?_⟩
  rw [e, Call.spelled_printed, annotate_none, String.empty_append]

theorem disassembleBytes_eq {loc : Addr} {w : Word} {b : ByteArray} (aligned : loc.Aligned)
    (hw : Bytes.Holds b 0 w) :
    ∃ t, (disassembleBytes loc b).1 = .ok t ∧
      Call.spelled (Recorder.printed loc w false) = t ++ "\n" := by
  have long : ¬b.size < wordSize :=
    Nat.not_lt.2 (Bytes.lt_size_of_byte? (hw 3 (by decide)))
  -- The bytes are mapped at the address itself, so the word stands at offset zero.
  have front : Bytes.Holds (b.extract 0 wordSize) (loc - loc).toNat w := by
    intro k hk
    have inside : 0 + (0 + k) < wordSize := by
      rw [Nat.zero_add, Nat.zero_add]
      exact hk
    rw [BitVec.sub_self, BitVec.toNat_zero, Bytes.byte?_extract, if_pos inside, Nat.zero_add]
    exact hw k hk
  obtain ⟨log, e⟩ := Session.disassemble_spelled false
    (Image.fetch_of_holds (i := ⟨loc, b.extract 0 wordSize⟩) aligned (BitVec.le_refl loc) front)
  refine ⟨Piece.render (fun a => Hex.marked a.toNat) ((Instruction.decode loc w).body false), ?_, ?_⟩
  · rw [disassembleBytes, if_neg long]
    simp only [e, Call.spelled_printed, Instruction.pieces_eq_body, Piece.render_append]
    exact congrArg Except.ok (withoutLineEnd_append (Instruction.over_body_text loc w false))
  · rw [Call.spelled_printed, Instruction.pieces_eq_body, Piece.render_append]
    rfl

/-! ### Agreement -/

/-- Four ways to disassemble the word at an address make the calls of its record, or spell it. -/
theorem front_ends_agree (loc : Addr) (w : Word) (raw : Bool) :
    (∀ (σ : Type) (h : Host σ) (s : σ) (L : Location) (flag : Int),
      L.setWidth 32 = loc → (flag ≠ 0 ↔ raw = true) → (h.fetch loc s).1 = w →
        Callbacks.disassemble (some ⟨some h.fetch, some h.writeAddress, some h.write⟩) h.note
            L flag s =
          (L + 4, h.replay (Recorder.printed loc w raw)
            (h.noteAll ((Instruction.decode loc w).events loc) (h.fetch loc s).2)) ∧
        (L + 4).setWidth 32 = (h.disassemble loc raw s).1 ∧
        (h.disassemble loc raw s).1 = loc + 4) ∧
    (∀ (σ : Type) (table : Option (Callbacks σ)) (note : LogEvent → σ → σ) (s : σ)
      (L : Location) (flag : Int),
      (∀ c ∈ table, c.fetch = none ∨ c.writeAddress = none ∨ c.write = none) →
        Callbacks.disassemble table note L flag s = (L, s)) ∧
    (loc.Aligned →
      (∀ memory : Addr → Word, memory loc = w →
        (Transcript.host.disassemble loc raw (.console memory)).2.output =
          Call.spelled (Recorder.printed loc w raw)) ∧
      (∀ i : Image, i.base ≤ loc → Bytes.Holds i.data (loc - i.base).toNat w →
        ∃ log, (Session.host.disassemble loc raw { image := i }).2 =
          { image := i, output := Call.spelled (Recorder.printed loc w raw), log }) ∧
      (raw = false → ∀ b : ByteArray, Bytes.Holds b 0 w →
        ∃ t, (disassembleBytes loc b).1 = .ok t ∧
          Call.spelled (Recorder.printed loc w raw) = t ++ "\n")) := by
  refine ⟨?_, ?_, fun aligned => ⟨?_, ?_, ?_⟩⟩
  · rintro σ h s L flag rfl hflag rfl
    have hraw : (flag != 0) = raw := by
      rw [Bool.eq_iff_iff, bne_iff_ne]
      exact hflag
    have next : (h.disassemble (L.setWidth 32) raw s).1 = L.setWidth 32 + 4 := by
      rw [Host.disassemble_eq_replay]
    refine ⟨?_, ?_, next⟩
    · rw [Callbacks.disassemble_complete, hraw, Host.disassemble_eq_replay]
    · rw [next, BitVec.setWidth_add _ _ (by decide)]
      rfl
  · intro σ table note s L flag
    exact Callbacks.disassemble_incomplete table note L flag s
  · rintro memory rfl
    obtain ⟨log, e⟩ := Transcript.disassemble_eq loc raw (.console memory)
    rw [e, Call.spelled_printed]
    exact String.empty_append
  · intro i hb hw
    exact Session.disassemble_spelled raw (i.fetch_of_holds aligned hb hw)
  · rintro rfl b hw
    exact disassembleBytes_eq aligned hw

/-- At the top of the address space the location goes on where addresses wrap. -/
theorem front_ends_agree_at_top :
    (Callbacks.disassemble (some ⟨some Recorder.host.fetch, some Recorder.host.writeAddress,
      some Recorder.host.write⟩) Recorder.host.note 0x1fffffffc 0
      { memory := fun _ => 0xeafffffe }).1 = 0x200000000 ∧
    (Transcript.host.disassemble 0xfffffffc false (.console fun _ => 0xeafffffe)).2.output =
      "b\t0xfffffffc\n" ∧
    ∃ t, (disassembleBytes 0xfffffffc ⟨#[0xfe, 0xff, 0xff, 0xea]⟩).1 = .ok t := by
  obtain ⟨table, -, aligned⟩ := front_ends_agree 0xfffffffc 0xeafffffe false
  obtain ⟨console, -, bytes⟩ := aligned (by decide)
  have run := table Recorder Recorder.host { memory := fun _ => 0xeafffffe } 0x1fffffffc 0
    (by decide) (by decide) rfl
  have line : Call.spelled (Recorder.printed 0xfffffffc 0xeafffffe false) = "b\t0xfffffffc\n" := by
    decide +kernel
  have holds : Bytes.Holds ⟨#[0xfe, 0xff, 0xff, 0xea]⟩ 0 0xeafffffe := by
    unfold Bytes.Holds
    decide
  refine ⟨?_, ?_, ?_⟩
  · rw [run.1]
    decide
  · rw [console _ rfl, line]
  · obtain ⟨t, ht, -⟩ := bytes rfl _ holds
    exact ⟨t, ht⟩

end Disarm
