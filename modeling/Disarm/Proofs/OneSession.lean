import Disarm.Proofs.SessionHistory
import Mathlib.Data.List.Nodup
/-!
Listings in one session. A loop can keep one session for all its rows and take text and fault out of it
after each instruction. Main statements: the loop writes what rows with a session each write, it reads
the words it lists and no others, and without headings and addresses its text is that of one run.
-/

namespace Disarm

/-! ### Hosts that are watched -/

namespace Host

variable {σ : Type}

/-- The host with a record of its calls beside its state. -/
def watched (h : Host σ) : Host (σ × List Call) where
  fetch a s := ((h.fetch a s.1).1, (h.fetch a s.1).2, s.2 ++ [.read a])
  writeAddress a s := (h.writeAddress a s.1, s.2 ++ [.address a])
  write t s := (h.write t s.1, s.2 ++ [.text t])
  note e s := (h.note e s.1, s.2)

theorem watched_noteAll (h : Host σ) (events : List LogEvent) (s : σ) (calls : List Call) :
    h.watched.noteAll events (s, calls) = (h.noteAll events s, calls) := by
  induction events generalizing s with
  | nil => rfl
  | cons e events ih => exact ih _

theorem watched_replay (h : Host σ) (more : List Call) (s : σ) (calls : List Call) :
    h.watched.replay more (s, calls) = (h.replay more s, calls ++ more) := by
  induction more generalizing s calls with
  | nil =>
    rw [List.append_nil]
    rfl
  | cons c more ih =>
    rw [List.append_cons]
    cases c with
    | read a => exact ih _ _
    | address a => exact ih _ _
    | text t => exact ih _ _

theorem watched_disassemble (h : Host σ) (loc : Addr) (raw : Bool) (s : σ) (calls : List Call) :
    h.watched.disassemble loc raw (s, calls) =
      (loc + 4, (h.disassemble loc raw s).2,
        calls ++ Recorder.trace loc (h.fetch loc s).1 raw) := by
  have seen : h.watched.fetch loc (s, calls) =
    ((h.fetch loc s).1, (h.fetch loc s).2, calls ++ [.read loc]) := rfl
  rw [disassemble_eq_replay, disassemble_eq_replay, Recorder.trace_eq_printed, seen,
    watched_noteAll, watched_replay, ← List.append_cons]

end Host

def Call.read? : Call → Option Addr
  | .read a => some a
  | .address _ | .text _ => none

theorem Recorder.reads_trace (loc : Addr) (w : Word) (raw : Bool) :
    (trace loc w raw).filterMap Call.read? = [loc] := by
  have silent : (printed loc w raw).filterMap Call.read? = [] := by
    rw [printed_eq, List.filterMap_eq_nil_iff]
    intro c hc
    obtain ⟨p, -, rfl⟩ := List.mem_map.1 hc
    cases p <;> rfl
  rw [trace_eq_printed, List.filterMap_cons, silent]
  rfl

/-! ### What an instruction adds to a session -/

namespace Session

theorem noteAll_eq_append (events : List LogEvent) (s : Session) :
    host.noteAll events s = { s with log := s.log ++ events.toArray } := by
  induction events generalizing s with
  | nil => simp [Host.noteAll]
  | cons e events ih =>
    change host.noteAll events { s with log := s.log.push e } = _
    rw [ih]
    simp

def single (i : Image) (t : Option SymbolTable) (raw : Bool) (loc : Addr) : Session :=
  (host.disassemble loc raw { image := i, symbols := t }).2

/-- An instruction adds to a session what it leaves in a new one. -/
theorem disassemble_eq_single (s : Session) (loc : Addr) (raw : Bool) :
    (host.disassemble loc raw s).2 =
      { s with
        output := s.output ++ (single s.image s.symbols raw loc).output
        fault := s.fault.or (single s.image s.symbols raw loc).fault
        log := s.log ++ (single s.image s.symbols raw loc).log } := by
  have opened (t : Session) : (host.disassemble loc raw t).2 =
      host.emit ((Instruction.decode loc (t.fetch loc).1).pieces raw)
        (host.noteAll ((Instruction.decode loc (t.fetch loc).1).events loc) (t.fetch loc).2) := rfl
  rw [single, opened, opened]
  simp only [emit_eq, noteAll_eq_append, fetch]
  cases s.image.fetch loc with
  | ok w => simp
  | error f => simp

theorem fault_single (i : Image) (t : Option SymbolTable) (raw : Bool) (loc : Addr) :
    (single i t raw loc).fault = Event.fault i (.call (.read loc)) := by
  change (host.emit _ (host.noteAll _ (fetch loc { image := i, symbols := t }).2)).fault = _
  rw [emit_eq, noteAll_eq_append]
  simp only [fetch, Event.fault]
  cases i.fetch loc with
  | ok w => rfl
  | error f => rfl

theorem output_single {i : Image} {loc : Addr} {w : Word} (t : Option SymbolTable) (raw : Bool)
    (h : i.fetch loc = .ok w) :
    (single i t raw loc).output =
      Piece.render (SymbolTable.annotate t) ((Instruction.decode loc w).pieces raw) := by
  obtain ⟨log, e⟩ := disassemble_eq (s := { image := i, symbols := t }) raw h
  rw [single, e]
  exact String.empty_append

theorem output_disassembleMany (n : Nat) (start : Addr) (raw : Bool) (s : Session) :
    (host.disassembleMany raw n start s).2.output =
      s.output ++ String.join ((List.range n).map fun k =>
        (single s.image s.symbols raw (start + BitVec.ofNat 32 (4 * k))).output) := by
  induction n generalizing start s with
  | zero => simp [Host.disassembleMany]
  | succ n ih =>
    change (host.disassembleMany raw n (start + 4) (host.disassemble start raw s).2).2.output = _
    rw [ih, disassemble_eq_single]
    simp only [Addr.add_four_add]
    simp [List.range_succ_eq_map, Function.comp_def, String.append_assoc]

end Session

/-! ### Words of an image -/

namespace Image

theorem fetch_of_lt_wordsFrom {i : Image} {a : Addr} {k n : Nat} (aligned : a.Aligned)
    (hk : k < i.wordsFrom a n) :
    i.fetch (a + BitVec.ofNat 32 (4 * k)) = .ok (i.shown (a + BitVec.ofNat 32 (4 * k))) := by
  obtain ⟨-, inside⟩ := hasWord_of_lt_wordsFrom hk
  obtain ⟨w, fetched⟩ := exists_fetch (aligned.add_mul k) inside
  rw [shown, fetched]

theorem nodup_words (i : Image) (a : Addr) (n : Nat) :
    ((List.range (i.wordsFrom a n)).map fun k => a + BitVec.ofNat 32 (4 * k)).Nodup := by
  apply List.Nodup.map_on ?_ List.nodup_range
  intro j hj k hk same
  have first := (hasWord_of_lt_wordsFrom (List.mem_range.1 hj)).1
  have second := (hasWord_of_lt_wordsFrom (List.mem_range.1 hk)).1
  rw [same] at first
  omega

end Image

/-! ### The loop -/

/-- How a listing in one session went: what was written, the fault that ended it, and the calls that
were made on the session. -/
structure Listing where
  written : Written
  fault : Option Fault
  calls : List Call

def Listing.reads (g : Listing) : List Addr := g.calls.filterMap Call.read?

namespace Printout

def headingAt (l : Printout) (loc : Addr) (first : Bool) : String :=
  match l.symbols.bind (·.get? loc) with
  | none => ""
  | some name => (if first then "" else "\n") ++ "<" ++ name ++ ">:\n"

/-- Goes on with a listing at an address, in the session of the `n` instructions before. At most `k`
more are listed. -/
def listFrom (l : Printout) (k n : Nat) (loc : Addr) (sink : Sink) (s : Session)
    (calls : List Call) : Listing :=
  match k with
  | 0 => ⟨⟨.ok n, sink, s.log⟩, none, calls⟩
  | k + 1 =>
    if l.image.HasWord loc then
      match sink.write (l.headingAt loc (n = 0)) with
      | (false, sink) => ⟨⟨.error .heading, sink, s.log⟩, none, calls⟩
      | (true, sink) =>
        let (next, s, calls) := Session.host.watched.disassemble loc l.raw (s, calls)
        match s.popFault with
        | (some f, s) => ⟨⟨.ok n, sink, s.log.push (.stopped f)⟩, some f, calls⟩
        | (none, s) =>
          let (text, s) := s.popOutput
          match sink.write (Hex.aligned 8 loc.toNat ++ ":\t" ++ text) with
          | (false, sink) => ⟨⟨.error .line, sink, s.log⟩, none, calls⟩
          | (true, sink) =>
            -- Past the top of the address space the next address is a low one.
            if next ≤ loc then ⟨⟨.ok (n + 1), sink, s.log⟩, none, calls⟩
            else listFrom l k (n + 1) next sink s calls
    else ⟨⟨.ok n, sink, s.log⟩, none, calls⟩

def inOneSession (l : Printout) (start : Addr) (count : Nat) (sink : Sink) : Listing :=
  l.listFrom count 0 start sink { image := l.image, symbols := l.symbols } []

variable {l : Printout}

abbrev one (l : Printout) (loc : Addr) : Session := .single l.image l.symbols l.raw loc

theorem loc_row (loc : Addr) : (l.row loc).loc = loc := rfl

theorem headingText_row (loc : Addr) (first : Bool) :
    (l.row loc).headingText first = l.headingAt loc first := rfl

theorem line_row (loc : Addr) : (l.row loc).line =
    match (l.one loc).fault with
    | some f => .error f
    | none => .ok (l.one loc).output := rfl

theorem log_row (loc : Addr) : (l.row loc).log =
    match (l.one loc).fault with
    | some f => (l.one loc).log.push (.stopped f)
    | none => (l.one loc).log := rfl

theorem rows_succ {k : Nat} {loc : Addr} (inside : l.image.HasWord loc) :
    l.rows (k + 1) loc =
      l.row loc :: if (l.one loc).fault = none ∧ loc < loc + 4 then l.rows k (loc + 4) else [] := by
  rw [rows, if_pos inside]
  dsimp only
  rw [line_row]
  cases (l.one loc).fault with
  | some f => simp [Except.toOption]
  | none => simp [Except.toOption]

/-- A session between two turns: apart from its log it is new. -/
structure Clean (l : Printout) (s : Session) : Prop where
  image : s.image = l.image
  symbols : s.symbols = l.symbols
  output : s.output = ""
  fault : s.fault = none

namespace Clean

variable {s : Session}

theorem disassemble (clean : l.Clean s) (loc : Addr) (calls : List Call) :
    Session.host.watched.disassemble loc l.raw (s, calls) =
      (loc + 4, { s with
          output := (l.one loc).output
          fault := (l.one loc).fault
          log := s.log ++ (l.one loc).log },
        calls ++ Recorder.trace loc (l.image.shown loc) l.raw) := by
  have fetched : (Session.host.fetch loc s).1 = l.image.shown loc := by
    change (s.fetch loc).1 = _
    rw [Session.fetch, Image.shown, clean.image]
    cases l.image.fetch loc <;> rfl
  rw [Host.watched_disassemble, fetched, Session.disassemble_eq_single, clean.image, clean.symbols,
    clean.output, clean.fault, String.empty_append, Option.none_or]

theorem popped (clean : l.Clean s) (log : Log) :
    l.Clean { s with output := "", fault := none, log } :=
  ⟨clean.image, clean.symbols, rfl, rfl⟩

end Clean

theorem written_listFrom (k n : Nat) (loc : Addr) (sink : Sink) {s : Session} (clean : l.Clean s)
    (calls : List Call) :
    (l.listFrom k n loc sink s calls).written = writeRows (l.rows k loc) n sink s.log := by
  induction k generalizing n loc sink s calls with
  | zero => rfl
  | succ k ih =>
    rw [listFrom]
    split
    · next inside =>
      rw [rows_succ inside, writeRows, headingText_row, clean.disassemble]
      rcases sink.write (l.headingAt loc (n = 0)) with ⟨_ | _, sink⟩
      · rfl
      · simp only [line_row, log_row, Row.lineText, loc_row, Session.popFault]
        cases (l.one loc).fault with
        | some f => simp only [Array.append_push]
        | none =>
          simp only [Session.popOutput]
          rcases sink.write (Hex.aligned 8 loc.toNat ++ ":\t" ++ (l.one loc).output)
            with ⟨_ | _, sink⟩
          · rfl
          · by_cases next : loc < loc + 4
            · simp only [if_neg (BitVec.not_le.2 next), if_pos (And.intro trivial next),
                ih _ _ _ (clean.popped _)]
            · simp only [if_pos (BitVec.not_lt.1 next), next, and_false, if_false]
              rfl
    · next outside =>
      rw [rows, if_neg outside]
      rfl

theorem written_inOneSession (l : Printout) (start : Addr) (count : Nat) (sink : Sink) :
    (l.inOneSession start count sink).written = l.write start count sink :=
  written_listFrom count 0 start sink ⟨rfl, rfl, rfl, rfl⟩ []

theorem fault_one (loc : Addr) :
    (l.one loc).fault = Session.Event.fault l.image (.call (.read loc)) :=
  Session.fault_single _ _ _ _

def callsAt (l : Printout) (loc : Addr) : List Call :=
  Recorder.trace loc (l.image.shown loc) l.raw

/-- Nothing else stops a sink without a limit, so the calls are those of the rows. -/
theorem calls_listFrom (k n : Nat) (loc : Addr) (b : ByteArray) {s : Session} (clean : l.Clean s)
    (calls : List Call) :
    (l.listFrom k n loc { bytes := b } s calls).calls =
      calls ++ (l.rows k loc).flatMap (fun r => l.callsAt r.loc) ∧
    (l.listFrom k n loc { bytes := b } s calls).fault =
      (l.rows k loc).findSome? fun r => Session.Event.fault l.image (.call (.read r.loc)) := by
  induction k generalizing n loc b s calls with
  | zero => simp [listFrom, rows]
  | succ k ih =>
    rw [listFrom]
    split
    · next inside =>
      rw [rows_succ inside, List.flatMap_cons, List.findSome?_cons, loc_row, ← fault_one,
        write_unlimited, clean.disassemble]
      dsimp only [Session.popFault]
      cases (l.one loc).fault with
      | some f => simp [callsAt]
      | none =>
        simp only [write_unlimited, Session.popOutput]
        by_cases next : loc < loc + 4
        · obtain ⟨more, fault⟩ := ih (n + 1) (loc + 4) _ (clean.popped _) _
          rw [if_neg (BitVec.not_le.2 next), if_pos ⟨trivial, next⟩, more, fault,
            List.append_assoc]
          exact ⟨rfl, rfl⟩
        · rw [if_pos (BitVec.not_lt.1 next), if_neg fun h => next h.2]
          simp [callsAt]
    · next outside => simp [rows, outside]

theorem reads_listFrom (k n : Nat) (loc : Addr) (b : ByteArray) {s : Session} (clean : l.Clean s)
    (calls : List Call) :
    (l.listFrom k n loc { bytes := b } s calls).reads =
      calls.filterMap Call.read? ++ (l.rows k loc).map Row.loc ∧
    (l.listFrom k n loc { bytes := b } s calls).fault =
      (l.rows k loc).findSome? fun r => Session.Event.fault l.image (.call (.read r.loc)) := by
  obtain ⟨all, fault⟩ := calls_listFrom k n loc b clean calls
  have once (r : Row) : (l.callsAt r.loc).filterMap Call.read? = [r.loc] :=
    Recorder.reads_trace _ _ _
  refine ⟨?_, fault⟩
  rw [Listing.reads, all, List.filterMap_append, List.filterMap_flatMap, List.map_eq_flatMap]
  simp only [once]

theorem rows_of_not_aligned {loc : Addr} (odd : ¬loc.Aligned) (n : Nat) :
    l.rows n loc = if 0 < n ∧ l.image.HasWord loc then [l.row loc] else [] := by
  cases n with
  | zero => simp [rows]
  | succ n =>
    by_cases inside : l.image.HasWord loc
    · have faulted : (l.one loc).fault = some (.unaligned loc) := by
        rw [fault_one, Session.Event.fault, Image.fetch_of_not_aligned odd]
      rw [rows_succ inside, faulted]
      simp [inside]
    · simp [rows, inside]

theorem write_of_aligned {start : Addr} (aligned : start.Aligned) (count : Nat) :
    ∃ log, l.write start count {} =
      ⟨.ok (l.image.wordsFrom start count), { bytes := (String.join
        ((List.range (l.image.wordsFrom start count)).map fun k =>
          stepText l.symbols l.raw (k = 0) (start + BitVec.ofNat 32 (4 * k))
            (l.image.shown (start + BitVec.ofNat 32 (4 * k))))).toUTF8 }, log⟩ :=
  write_eq count aligned fun _ hk => Image.fetch_of_lt_wordsFrom aligned hk

theorem count_write_of_aligned {start : Addr} (aligned : start.Aligned) (count : Nat) :
    (l.write start count {}).count = .ok (l.image.wordsFrom start count) := by
  obtain ⟨log, written⟩ := write_of_aligned (l := l) aligned count
  rw [written]

theorem reads_of_aligned {start : Addr} (aligned : start.Aligned) (count : Nat) :
    (l.inOneSession start count {}).reads =
      (List.range (l.image.wordsFrom start count)).map
        (fun k => start + BitVec.ofNat 32 (4 * k)) ∧
    (l.inOneSession start count {}).fault = none := by
  obtain ⟨reads, fault⟩ := reads_listFrom (l := l) count 0 start .empty
    (s := { image := l.image, symbols := l.symbols }) ⟨rfl, rfl, rfl, rfl⟩ []
  rw [rows_eq count aligned] at reads fault
  constructor
  · rw [inOneSession, reads, List.map_map]
    rfl
  · rw [inOneSession, fault, List.findSome?_eq_none_iff]
    intro r hr
    obtain ⟨k, hk, rfl⟩ := List.mem_map.1 hr
    rw [loc_row, Session.Event.fault, Image.fetch_of_lt_wordsFrom aligned (List.mem_range.1 hk)]

theorem reads_of_not_aligned {start : Addr} (odd : ¬start.Aligned) (count : Nat) :
    (l.inOneSession start count {}).reads =
      (if 0 < count ∧ l.image.HasWord start then [start] else []) ∧
    (l.inOneSession start count {}).fault =
      (if 0 < count ∧ l.image.HasWord start then some (.unaligned start) else none) ∧
    (l.write start count {}).count = .ok 0 := by
  have refused : Session.Event.fault l.image (.call (.read start)) = some (.unaligned start) := by
    rw [Session.Event.fault, Image.fetch_of_not_aligned odd]
  obtain ⟨reads, fault⟩ := reads_listFrom (l := l) count 0 start .empty
    (s := { image := l.image, symbols := l.symbols }) ⟨rfl, rfl, rfl, rfl⟩ []
  rw [rows_of_not_aligned odd] at reads fault
  rw [inOneSession, reads, fault, write, rows_of_not_aligned odd]
  split
  · rw [writeRows, write_unlimited]
    simp [line_row, fault_one, refused, loc_row]
  · exact ⟨rfl, rfl, rfl⟩

/-- A listing starts with a read that is refused: a word of the image would stand there, but not at a
multiple of four. -/
def StartsAstray (l : Printout) (start : Addr) (count : Nat) : Prop :=
  ¬4 ∣ start.toNat ∧ 0 < count ∧ l.image.HasWord start

instance (l : Printout) (start : Addr) (count : Nat) : Decidable (l.StartsAstray start count) :=
  inferInstanceAs (Decidable (_ ∧ _))

/-- A listing is as long as count, image and address space allow. It reads each word it lists once and
in order, and nothing else unless it starts astray; then it reads one word, which faults and ends it.
No read leaves the image. -/
theorem reads_inOneSession (l : Printout) (start : Addr) (count : Nat) :
    ∃ n,
      n = (if 4 ∣ start.toNat ∧ l.image.base ≤ start ∧ start.toNat ≤ l.image.stop then
        min count ((min l.image.stop (2 ^ 32) - start.toNat) / 4) else 0) ∧
      (l.inOneSession start count {}).written = l.write start count {} ∧
      (l.write start count {}).count = .ok n ∧
      (l.inOneSession start count {}).reads =
        (List.range n).map (fun k => start + BitVec.ofNat 32 (4 * k)) ++
          (if l.StartsAstray start count then [start] else []) ∧
      (l.inOneSession start count {}).fault =
        (if l.StartsAstray start count then some (.unaligned start) else none) ∧
      (∀ k < n, (start + BitVec.ofNat 32 (4 * k)).toNat = start.toNat + 4 * k ∧
        ∃ w, l.image.fetch (start + BitVec.ofNat 32 (4 * k)) = .ok w) ∧
      (l.StartsAstray start count → l.image.fetch start = .error (.unaligned start)) ∧
      (l.inOneSession start count {}).reads.Nodup := by
  have multiple : 4 ∣ start.toNat ↔ start.Aligned := Addr.aligned_iff_dvd.symm
  refine ⟨_, rfl, written_inOneSession l start count {}, ?_⟩
  by_cases aligned : start.Aligned
  · obtain ⟨reads, fault⟩ := reads_of_aligned (l := l) aligned count
    have straight : ¬l.StartsAstray start count := fun astray => astray.1 (multiple.2 aligned)
    simp only [multiple, aligned, true_and, straight, if_false, List.append_nil]
    refine ⟨count_write_of_aligned aligned count, reads, fault, ?_, nofun, ?_⟩
    · intro k hk
      exact ⟨(Image.hasWord_of_lt_wordsFrom hk).1, _, Image.fetch_of_lt_wordsFrom aligned hk⟩
    · rw [reads]
      exact l.image.nodup_words start count
  · obtain ⟨reads, fault, none⟩ := reads_of_not_aligned (l := l) aligned count
    have astray : l.StartsAstray start count ↔ 0 < count ∧ l.image.HasWord start := by
      simp [StartsAstray, multiple, aligned]
    simp only [multiple, aligned, false_and, if_false, astray, List.range_zero, List.map_nil,
      List.nil_append]
    refine ⟨none, reads, fault, nofun, fun _ => Image.fetch_of_not_aligned aligned, ?_⟩
    rw [reads]
    split <;> simp

/-- Two words and three bytes more, past the top of the address space. -/
def passingTop : Printout where
  image := ⟨0xfffffff8, ⟨#[0x1e, 0xff, 0x2f, 0xe1, 0xfe, 0xff, 0xff, 0xea, 1, 2, 3]⟩⟩
  symbols := none
  raw := false

theorem reads_inOneSession_passingTop :
    (passingTop.write 0xfffffff8 64 {}).count = .ok 2 ∧
    (passingTop.inOneSession 0xfffffff8 64 {}).reads = [0xfffffff8, 0xfffffffc] ∧
    passingTop.StartsAstray 0xfffffff9 64 ∧
    (passingTop.inOneSession 0xfffffff9 64 {}).reads = [0xfffffff9] ∧
    (passingTop.inOneSession 0xfffffff9 64 {}).fault = some (.unaligned 0xfffffff9) := by
  obtain ⟨n, two, -, count, reads, -⟩ := reads_inOneSession passingTop 0xfffffff8 64
  obtain ⟨m, zero, -, -, stray, fault, -⟩ := reads_inOneSession passingTop 0xfffffff9 64
  have astray : passingTop.StartsAstray 0xfffffff9 64 := by decide
  rw [if_pos astray] at stray fault
  obtain rfl : n = 2 := two
  obtain rfl : m = 0 := zero
  exact ⟨count, reads, astray, stray, fault⟩

/-- A step of a listing, taken apart: the heading with the blank line before it, the address column,
and what disassembly printed. -/
structure Block where
  heading : String
  column : String
  line : String

def Block.text (b : Block) : String := b.heading ++ b.column ++ b.line

def blockAt (l : Printout) (first : Bool) (loc : Addr) : Block where
  heading := l.headingAt loc first
  column := Hex.aligned 8 loc.toNat ++ ":\t"
  line := (l.one loc).output

theorem stepText_eq {loc : Addr} {w : Word} (h : l.image.fetch loc = .ok w) (first : Bool) :
    stepText l.symbols l.raw first loc w = (l.blockAt first loc).text := by
  rw [Block.text, blockAt, Session.output_single _ _ h, String.append_assoc]
  rfl

theorem bytes_write_of_aligned {start : Addr} (aligned : start.Aligned) (count : Nat) :
    (l.write start count {}).sink.bytes =
      (String.join ((List.range (l.image.wordsFrom start count)).map fun i =>
        (l.blockAt (i = 0) (start + BitVec.ofNat 32 (4 * i))).text)).toUTF8 := by
  obtain ⟨log, written⟩ := write_of_aligned (l := l) aligned count
  rw [written]
  apply congrArg (fun t => (String.join t).toUTF8)
  apply List.map_congr_left
  intro k hk
  exact stepText_eq (Image.fetch_of_lt_wordsFrom aligned (List.mem_range.1 hk)) _

/-- A listing is the steps of its instructions, one after the other, and the lines of the steps alone
are what a run of disassembly prints. -/
theorem write_eq_blocks (l : Printout) (start : Addr) (count : Nat) (aligned : 4 ∣ start.toNat) :
    ∃ n blocks, (l.write start count {}).count = .ok n ∧
      blocks = (List.range n).map (fun i => l.blockAt (i = 0) (start + BitVec.ofNat 32 (4 * i))) ∧
      (∀ sink, (l.inOneSession start count sink).written = l.write start count sink) ∧
      (l.write start count {}).sink.bytes = (String.join (blocks.map Block.text)).toUTF8 ∧
      (Session.host.disassembleMany l.raw n start
        { image := l.image, symbols := l.symbols }).2.output =
          String.join (blocks.map Block.line) := by
  have aligned : start.Aligned := Addr.aligned_iff_dvd.2 aligned
  refine ⟨_, _, count_write_of_aligned aligned count, rfl, written_inOneSession l start count, ?_, ?_⟩
  · rw [bytes_write_of_aligned aligned, List.map_map]
    rfl
  · rw [Session.output_disassembleMany, List.map_map]
    exact String.empty_append

def labelled : Printout where
  image := ⟨0x8000, ⟨#[0x1e, 0xff, 0x2f, 0xe1, 0xfe, 0xff, 0xff, 0xea]⟩⟩
  symbols := some (.ofList [⟨0x8004, 4, "loop"⟩])
  raw := false

theorem write_eq_blocks_labelled :
    4 ∣ (0x8000 : Addr).toNat ∧
    (labelled.write 0x8000 64 {}).sink.bytes =
      "    8000:\tbx\tlr\n\n<loop>:\n    8004:\tb\t0x00008004 <loop>\n".toUTF8 ∧
    (Session.host.disassembleMany false 2 0x8000
      { image := labelled.image, symbols := labelled.symbols }).2.output =
        "bx\tlr\nb\t0x00008004 <loop>\n" := by
  have aligned : 4 ∣ (0x8000 : Addr).toNat := by decide
  obtain ⟨n, blocks, count, steps, -, text, run⟩ := write_eq_blocks labelled 0x8000 64 aligned
  have two : (labelled.write 0x8000 64 {}).count = .ok 2 := by decide +kernel
  rw [two] at count
  cases count
  rw [steps] at text run
  refine ⟨aligned, text.trans ?_, run.trans ?_⟩
  · decide +kernel
  · decide +kernel

end Printout

end Disarm
