import Disarm.Host.Recorder
import Disarm.Host.Transcript
import Disarm.Image.Session
/-!
Records of disassembly. The record of one instruction is a read and then the pieces of its line, and
what any host goes through is that record played back. Joining texts does not change the characters
and addresses that come out.
-/

namespace Disarm

def Piece.call : Piece → Call
  | .text s => .text s
  | .address a => .address a

namespace Host

variable {σ : Type}

def replay (h : Host σ) : List Call → σ → σ
  | [], s => s
  | .read a :: l, s => replay h l (h.fetch a s).2
  | .address a :: l, s => replay h l (h.writeAddress a s)
  | .text t :: l, s => replay h l (h.write t s)

def noteAll (h : Host σ) (l : List LogEvent) (s : σ) : σ := l.foldl (fun s e => h.note e s) s

theorem emit_eq_replay (h : Host σ) (l : List Piece) (s : σ) :
    h.emit l s = h.replay (l.map Piece.call) s := by
  induction l generalizing s with
  | nil => rfl
  | cons p l ih =>
    cases p with
    | text t => exact ih _
    | address a => exact ih _

end Host

namespace Recorder

theorem toList_emit (l : List Piece) (s : Recorder) :
    (host.emit l s).calls.toList = s.calls.toList ++ l.map Piece.call := by
  induction l generalizing s with
  | nil => simp [Host.emit]
  | cons p l ih =>
    cases p with
    | text t =>
      rw [Host.emit, ih]
      simp [host, Piece.call]
    | address a =>
      rw [Host.emit, ih]
      simp [host, Piece.call]

theorem calls_noteAll (l : List LogEvent) (s : Recorder) : (host.noteAll l s).calls = s.calls := by
  induction l generalizing s with
  | nil => rfl
  | cons e l ih => exact ih _

/-- All calls of disassembling one word, wherever it is read. -/
def trace (loc : Addr) (w : Word) (raw : Bool) : List Call :=
  (host.disassemble loc raw { memory := fun _ => w }).2.calls.toList

theorem trace_eq (loc : Addr) (w : Word) (raw : Bool) :
    trace loc w raw = .read loc :: ((Instruction.decode loc w).pieces raw).map Piece.call := by
  unfold trace Host.disassemble
  change (host.emit _ (host.noteAll _ _)).calls.toList = _
  rw [toList_emit, calls_noteAll]
  rfl

/-- The calls that print: all but the read. -/
def printed (loc : Addr) (w : Word) (raw : Bool) : List Call :=
  (trace loc w raw).filter fun c => c ≠ .read loc

theorem printed_eq (loc : Addr) (w : Word) (raw : Bool) :
    printed loc w raw = ((Instruction.decode loc w).pieces raw).map Piece.call := by
  rw [printed, trace_eq, List.filter_cons_of_neg (by simp), List.filter_eq_self]
  intro c hc
  obtain ⟨p, -, rfl⟩ := List.mem_map.1 hc
  cases p <;> simp [Piece.call]

theorem trace_eq_printed (loc : Addr) (w : Word) (raw : Bool) :
    trace loc w raw = .read loc :: printed loc w raw := by
  rw [trace_eq, printed_eq]

end Recorder

/-- Every host goes through the record: a read, the events of decoding, and the calls that print. -/
theorem Host.disassemble_eq_replay {σ : Type} (h : Host σ) (loc : Addr) (raw : Bool) (s : σ) :
    h.disassemble loc raw s =
      (loc + 4, h.replay (Recorder.printed loc (h.fetch loc s).1 raw)
        (h.noteAll ((Instruction.decode loc (h.fetch loc s).1).events loc) (h.fetch loc s).2)) := by
  rw [Recorder.printed_eq, ← emit_eq_replay]
  rfl

theorem Transcript.noteAll_eq (l : List LogEvent) (t : Transcript) :
    ∃ log, host.noteAll l t = { t with log } := by
  induction l generalizing t with
  | nil => exact ⟨t.log, rfl⟩
  | cons e l ih => exact ih _

theorem Transcript.disassemble_eq (loc : Addr) (raw : Bool) (t : Transcript) :
    ∃ log, (host.disassemble loc raw t).2 =
      { t with
        output := t.output ++
          Piece.render t.spell ((Instruction.decode loc (t.memory loc)).pieces raw)
        log } := by
  obtain ⟨log, noted⟩ := noteAll_eq ((Instruction.decode loc (t.memory loc)).events loc) t
  refine ⟨log, ?_⟩
  change host.emit _ (host.noteAll _ t) = _
  rw [noted, emit_eq]

namespace Session

theorem noteAll_eq (l : List LogEvent) (s : Session) :
    ∃ log, host.noteAll l s = { s with log } := by
  induction l generalizing s with
  | nil => exact ⟨s.log, rfl⟩
  | cons e l ih => exact ih _

/-- A word that can be fetched is disassembled without a fault. -/
theorem disassemble_eq {loc : Addr} {w : Word} {s : Session} (raw : Bool)
    (h : s.image.fetch loc = .ok w) :
    ∃ log, (host.disassemble loc raw s).2 =
      { s with
        output := s.output ++ Piece.render (SymbolTable.annotate s.symbols)
          ((Instruction.decode loc w).pieces raw)
        log } := by
  have fetched : host.fetch loc s = (w, s) := by
    change fetch loc s = _
    rw [fetch, h]
  obtain ⟨log, noted⟩ := noteAll_eq ((Instruction.decode loc w).events loc) s
  refine ⟨log, ?_⟩
  unfold Host.disassemble
  rw [fetched]
  change host.emit _ (host.noteAll _ s) = _
  rw [noted, emit_eq]

end Session

/-- What a record shows: characters and addresses one by one. -/
inductive Sign where
  | char (c : Char)
  | address (a : Addr)
  | read (a : Addr)
deriving DecidableEq

namespace Sign

theorem char_mem_map {c : Char} {l : List Char} : char c ∈ l.map char ↔ c ∈ l := by
  constructor
  · intro h
    obtain ⟨d, hd, e⟩ := List.mem_map.1 h
    exact char.inj e ▸ hd
  · exact List.mem_map_of_mem

theorem map_char_inj {l m : List Char} (h : l.map char = m.map char) : l = m :=
  (List.map_inj_right fun _ _ => char.inj).1 h

end Sign

namespace Call

def signs : List Call → List Sign
  | [] => []
  | .text s :: l => s.toList.map .char ++ signs l
  | .address a :: l => .address a :: signs l
  | .read a :: l => .read a :: signs l

theorem signs_append (l m : List Call) : signs (l ++ m) = signs l ++ signs m := by
  induction l with
  | nil => rfl
  | cons c l ih => cases c <;> simp [signs, ih]

/-- Joining texts changes no sign. -/
theorem signs_join (l : List Call) : signs (join l) = signs l := by
  induction l with
  | nil => rfl
  | cons c l ih =>
    cases c with
    | text s =>
      rw [join]
      split
      · next t r h =>
        rw [h] at ih
        simp only [signs, String.toList_append, List.map_append, List.append_assoc] at ih ⊢
        rw [ih]
      · split
        · next h => simp only [signs, h, String.toList_empty, List.map_nil, List.nil_append, ih]
        · simp only [signs, ih]
    | address a => simp only [join, signs, ih]
    | read a => simp only [join, signs, ih]

end Call

end Disarm
