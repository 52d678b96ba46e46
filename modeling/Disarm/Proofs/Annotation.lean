import Disarm.Proofs.FrontEnds
import Disarm.Proofs.OneSession
import Disarm.Proofs.PrintedAddress
/-!
Listings with symbols and without. A table of symbols has no part in decoding, in faults or in where a
listing ends. Main statement: a listing with symbols makes the calls of the one without, and its steps
have a heading more and, before the line end, the symbol of the address that was printed.
-/

namespace Disarm

/-- What a table adds to an address that is printed. -/
def SymbolTable.label (t : SymbolTable) (a : Addr) : String :=
  match t.owner? a with
  | none => ""
  | some (name, offset) =>
    if offset = 0 then " <" ++ name ++ ">"
    else " <" ++ name ++ "+0x" ++ Hex.text offset.toNat ++ ">"

def Call.address? : Call → Option Addr
  | .address a => some a
  | .read _ | .text _ => none

/-! ### Lines -/

namespace Piece

theorem render_texts (f : Addr → String) (texts : List String) :
    render f (texts.map .text) = String.join texts := by
  induction texts with
  | nil => rfl
  | cons t texts ih => rw [List.map_cons, render, ih, String.join_cons]

theorem EndsWith.render {l : List Piece} {a : Option Addr} (h : EndsWith a l) :
    ∃ front, ∀ f, Piece.render f l = front ++ a.elim "" f := by
  obtain ⟨texts, rfl⟩ := h
  refine ⟨String.join texts, fun f => ?_⟩
  rw [render_append, render_texts]
  cases a with
  | none => rfl
  | some a => exact congrArg (String.join texts ++ ·) (String.append_empty)

theorem EndsWith.addresses {l : List Piece} {a : Option Addr} (h : EndsWith a l) :
    (l.map call).filterMap Call.address? = a.toList := by
  obtain ⟨texts, rfl⟩ := h
  have silent : ((texts.map Piece.text).map call).filterMap Call.address? = [] := by
    simp [List.filterMap_eq_nil_iff, call, Call.address?]
  rw [List.map_append, List.filterMap_append, silent]
  cases a <;> rfl

end Piece

/-- The only address an instruction may print is the one its line ends with. -/
theorem Recorder.addresses_trace (loc : Addr) (w : Word) (raw : Bool) :
    (trace loc w raw).filterMap Call.address? = (w.distance?.map loc.fromCounter).toList := by
  have addresses := (Instruction.endsWith_body loc w raw).addresses
  rw [trace_eq, Instruction.pieces_eq_body, List.map_append, List.filterMap_cons,
    List.filterMap_append, addresses]
  exact List.append_nil _

/-! ### Listings -/

namespace Printout

variable {l : Printout} {start loc : Addr} {w : Word}

def bare (l : Printout) : Printout := { l with symbols := none }

def named (l : Printout) (t : SymbolTable) : Printout := { l with symbols := some t }

theorem calls_of_aligned (aligned : start.Aligned) (count : Nat) :
    (l.inOneSession start count {}).calls =
      (List.range (l.image.wordsFrom start count)).flatMap fun k =>
        l.callsAt (start + BitVec.ofNat 32 (4 * k)) := by
  obtain ⟨calls, -⟩ := calls_listFrom (l := l) count 0 start .empty
    (s := { image := l.image, symbols := l.symbols }) ⟨rfl, rfl, rfl, rfl⟩ []
  rw [inOneSession, calls, rows_eq count aligned, List.nil_append, List.flatMap_map]
  rfl

/-- A step with symbols beside the step without them: a heading more, and a label behind the address
that was printed. -/
structure Annotates (t : SymbolTable) (first : Bool) (loc : Addr) (address : Option Addr)
    (plain step : Block) : Prop where
  plainHeading : plain.heading = ""
  heading : step.heading =
    match t.get? loc with
    | none => ""
    | some name => (if first then "" else "\n") ++ "<" ++ name ++ ">:\n"
  column : step.column = plain.column
  line : ∃ body, '\n' ∉ body.toList ∧ plain.line = body ++ "\n" ∧
    step.line = body ++ address.elim "" t.label ++ "\n"

theorem annotates_of_fetch (h : l.image.fetch loc = .ok w) (t : SymbolTable) (first : Bool) :
    Annotates t first loc (w.distance?.map loc.fromCounter) (l.bare.blockAt first loc)
      ((l.named t).blockAt first loc) := by
  obtain ⟨front, written⟩ := (Instruction.endsWith_body loc w l.raw).render
  generalize w.distance?.map loc.fromCounter = address at written ⊢
  have text (f : Addr → String) : Piece.render f ((Instruction.decode loc w).pieces l.raw) =
      front ++ address.elim "" f ++ "\n" := by
    rw [Instruction.pieces_eq_body, Piece.render_append, written]
    rfl
  refine ⟨rfl, rfl, rfl, front ++ address.elim "" (fun a => Hex.marked a.toNat), ?_, ?_, ?_⟩
  · intro lineEnd
    rw [← written] at lineEnd
    exact Instruction.over_body_text loc w l.raw _ lineEnd rfl
  · rw [← text, ← annotate_none]
    exact Session.output_single none l.raw h
  · have labelled : front ++ address.elim "" (SymbolTable.annotate (some t)) =
        front ++ address.elim "" (fun a => Hex.marked a.toNat) ++ address.elim "" t.label := by
      rw [String.append_assoc]
      cases address with
      | none => rfl
      | some a => rfl
    rw [← labelled, ← text]
    exact Session.output_single (some t) l.raw h

/-- Symbols only annotate. With them a listing has as many instructions, makes the same calls, and
differs in headings and in labels of printed addresses. -/
theorem write_named (l : Printout) (t : SymbolTable) (start : Addr) (count : Nat)
    (aligned : 4 ∣ start.toNat) :
    ∃ n, (l.bare.write start count {}).count = .ok n ∧
      ((l.named t).write start count {}).count = .ok n ∧
      (l.bare.write start count {}).sink.bytes = (String.join ((List.range n).map fun k =>
        (l.bare.blockAt (k = 0) (start + BitVec.ofNat 32 (4 * k))).text)).toUTF8 ∧
      ((l.named t).write start count {}).sink.bytes = (String.join ((List.range n).map fun k =>
        ((l.named t).blockAt (k = 0) (start + BitVec.ofNat 32 (4 * k))).text)).toUTF8 ∧
      (∀ m ∈ [l.bare, l.named t],
        (m.inOneSession start count {}).written = m.write start count {} ∧
        (m.inOneSession start count {}).calls = (List.range n).flatMap fun k =>
          l.callsAt (start + BitVec.ofNat 32 (4 * k))) ∧
      ∀ k < n, ∃ address : Option Addr,
        (l.callsAt (start + BitVec.ofNat 32 (4 * k))).filterMap Call.address? = address.toList ∧
        Annotates t (k = 0) (start + BitVec.ofNat 32 (4 * k)) address
          (l.bare.blockAt (k = 0) (start + BitVec.ofNat 32 (4 * k)))
          ((l.named t).blockAt (k = 0) (start + BitVec.ofNat 32 (4 * k))) := by
  have aligned : start.Aligned := Addr.aligned_iff_dvd.2 aligned
  refine ⟨l.image.wordsFrom start count, count_write_of_aligned aligned count,
    count_write_of_aligned aligned count, bytes_write_of_aligned aligned count,
    bytes_write_of_aligned aligned count, ?_, ?_⟩
  · intro m hm
    refine ⟨written_inOneSession m start count {}, ?_⟩
    rw [calls_of_aligned aligned]
    obtain rfl | hm := List.mem_cons.1 hm
    · rfl
    · obtain rfl := List.mem_singleton.1 hm
      rfl
  · intro k hk
    have fetched := Image.fetch_of_lt_wordsFrom aligned hk
    exact ⟨_, Recorder.addresses_trace _ _ l.raw, annotates_of_fetch fetched t _⟩

/-- A return, and a branch to itself four bytes behind a name. -/
theorem write_named_labelled :
    4 ∣ (0x8000 : Addr).toNat ∧
    (labelled.bare.write 0x8000 64 {}).sink.bytes =
      "    8000:\tbx\tlr\n    8004:\tb\t0x00008004\n".toUTF8 ∧
    ((labelled.named (.ofList [⟨0x8000, 0, "start"⟩])).write 0x8000 64 {}).sink.bytes =
      "<start>:\n    8000:\tbx\tlr\n    8004:\tb\t0x00008004 <start+0x4>\n".toUTF8 := by
  have aligned : 4 ∣ (0x8000 : Addr).toNat := by decide
  obtain ⟨n, count, -, plain, text, -⟩ :=
    write_named labelled (.ofList [⟨0x8000, 0, "start"⟩]) 0x8000 64 aligned
  have two : (labelled.bare.write 0x8000 64 {}).count = .ok 2 := by decide +kernel
  rw [two] at count
  cases count
  refine ⟨aligned, plain.trans ?_, text.trans ?_⟩
  · decide +kernel
  · decide +kernel

end Printout

end Disarm
