import Disarm.Proofs.Placement
import Disarm.Proofs.Rows
import Mathlib.Data.List.DropRight
/-!
Sessions by what happened to them. The calls of a session make a history of reads and prints, those of
the instructions it disassembles among them. Main statement: whatever the calls were, the text that
waits and the fault that is kept can be read off the history.
-/

namespace Disarm

/-! ### Fetching -/

namespace Image

variable {i : Image} {a : Addr}

theorem hasWord_iff : i.HasWord a ↔
    ∀ k < 4, i.base.toNat ≤ a.toNat + k ∧ a.toNat + k < i.base.toNat + i.data.size := by
  unfold HasWord stop wordSize
  rw [BitVec.le_def]
  constructor
  · rintro ⟨above, below⟩ k hk
    omega
  · intro h
    have first := h 0 (by decide)
    have last := h 3 (by decide)
    omega

theorem fetch_of_not_aligned (h : ¬a.Aligned) : i.fetch a = .error (.unaligned a) := if_neg h

theorem fetch_of_not_hasWord (aligned : a.Aligned) (h : ¬i.HasWord a) :
    i.fetch a = .error (.outOfBounds a) := by
  have none : i.word? a = none := by
    unfold word?
    split
    · next above =>
      refine Option.eq_none_iff_forall_ne_some.2 fun w hw => h ⟨above, ?_⟩
      have room := Bytes.le_size_of_word? hw
      rw [BitVec.toNat_sub_of_le above] at room
      have low := BitVec.le_def.1 above
      unfold stop wordSize
      omega
    · rfl
  rw [fetch, if_pos aligned, none]

theorem fetch_of_hasWord (aligned : a.Aligned) (h : i.HasWord a) :
    ∃ _ : a.toNat - i.base.toNat + 3 < i.data.size,
      i.fetch a = .ok (.ofBytes i.data[a.toNat - i.base.toNat] i.data[a.toNat - i.base.toNat + 1]
        i.data[a.toNat - i.base.toNat + 2] i.data[a.toNat - i.base.toNat + 3]) := by
  obtain ⟨above, below⟩ := h
  have low := BitVec.le_def.1 above
  unfold stop wordSize at below
  have room : a.toNat - i.base.toNat + 3 < i.data.size := by omega
  refine ⟨room, ?_⟩
  rw [fetch, if_pos aligned, word?, if_pos above, BitVec.toNat_sub_of_le above]
  simp only [Bytes.word?, Bytes.byte?_of_lt room,
    Bytes.byte?_of_lt (show a.toNat - i.base.toNat < i.data.size by omega),
    Bytes.byte?_of_lt (show a.toNat - i.base.toNat + 1 < i.data.size by omega),
    Bytes.byte?_of_lt (show a.toNat - i.base.toNat + 2 < i.data.size by omega),
    Option.bind_eq_bind, Option.bind_some, Option.pure_def]

/-- What a read shows: the word, or zero if it cannot be fetched. -/
def shown (i : Image) (a : Addr) : Word :=
  match i.fetch a with
  | .ok w => w
  | .error _ => 0

end Image

namespace Session

/-! ### Histories -/

inductive Action where
  | read (a : Addr)
  | printAddress (a : Addr)
  | print (t : String)
  | disassemble (loc : Addr) (raw : Bool)
  | disassembleMany (start : Addr) (count : Nat) (raw : Bool)
  | takeOutput
  | takeFault

def Action.apply (s : Session) : Action → Session
  | read a => (s.fetch a).2
  | printAddress a => s.writeAddress a
  | print t => (s.write t).2
  | disassemble loc raw => (host.disassemble loc raw s).2
  | disassembleMany start count raw => (host.disassembleMany raw count start s).2
  | takeOutput => s.popOutput.2
  | takeFault => s.popFault.2

def after (i : Image) (symbols : Option SymbolTable) (l : List Action) : Session :=
  l.foldl Action.apply { image := i, symbols }

inductive Event where
  | call (c : Call)
  | outputTaken
  | faultTaken
deriving DecidableEq

namespace Event

/-- The events of disassembling one instruction of an image: those of its record. -/
def ofInstruction (i : Image) (raw : Bool) (loc : Addr) : List Event :=
  (Recorder.trace loc (i.shown loc) raw).map call

def ofAction (i : Image) : Action → List Event
  | .read a => [call (.read a)]
  | .printAddress a => [call (.address a)]
  | .print t => [call (.text t)]
  | .disassemble loc raw => ofInstruction i raw loc
  | .disassembleMany start count raw =>
    (List.range count).flatMap fun k => ofInstruction i raw (start + BitVec.ofNat 32 (4 * k))
  | .takeOutput => [outputTaken]
  | .takeFault => [faultTaken]

def text (spell : Addr → String) : Event → String
  | call (.text t) => t
  | call (.address a) => spell a
  | _ => ""

def fault (i : Image) : Event → Option Fault
  | call (.read a) =>
    match i.fetch a with
    | .error f => some f
    | .ok _ => none
  | _ => none

end Event

def history (i : Image) (l : List Action) : List Event := l.flatMap (Event.ofAction i)

/-- What happened after the last event `e`, or all if there is none. -/
def since (e : Event) (l : List Event) : List Event := l.rtakeWhile (· ≠ e)

theorem since_concat_self (e : Event) (l : List Event) : since e (l ++ [e]) = [] :=
  List.rtakeWhile_concat_neg _ _ _ (by simp)

theorem since_concat {e f : Event} (h : f ≠ e) (l : List Event) :
    since e (l ++ [f]) = since e l ++ [f] :=
  List.rtakeWhile_concat_pos _ _ _ (by simp [h])

/-- The texts printed since the last time the text was taken. -/
def printed (symbols : Option SymbolTable) (l : List Event) : String :=
  String.join ((since .outputTaken l).map (Event.text (SymbolTable.annotate symbols)))

/-- The first fault since the last time a fault was taken. -/
def firstFault (i : Image) (l : List Event) : Option Fault :=
  (since .faultTaken l).findSome? (Event.fault i)

theorem printed_concat (symbols : Option SymbolTable) (l : List Event) (e : Event)
    (h : e ≠ .outputTaken) :
    printed symbols (l ++ [e]) = printed symbols l ++ e.text (SymbolTable.annotate symbols) := by
  rw [printed, since_concat h, List.map_append, String.join_append]
  simp [printed]

theorem firstFault_concat (i : Image) (l : List Event) (e : Event) (h : e ≠ .faultTaken) :
    firstFault i (l ++ [e]) = (firstFault i l).or (e.fault i) := by
  rw [firstFault, since_concat h, List.findSome?_append]
  rw [List.findSome?_singleton]
  rfl

/-! ### Steps -/

/-- A session has come out of a history over an image with symbols. -/
structure Reflects (i : Image) (t : Option SymbolTable) (l : List Event) (s : Session) : Prop where
  image : s.image = i
  symbols : s.symbols = t
  output : s.output = printed t l
  fault : s.fault = firstFault i l

namespace Reflects

variable {i : Image} {t : Option SymbolTable} {l : List Event} {s : Session}

theorem start (i : Image) (t : Option SymbolTable) :
    Reflects i t [] { image := i, symbols := t } :=
  ⟨rfl, rfl, rfl, rfl⟩

theorem noteAll (h : Reflects i t l s) (events : List LogEvent) :
    Reflects i t l (host.noteAll events s) := by
  obtain ⟨log, e⟩ := noteAll_eq events s
  rw [e]
  exact ⟨h.image, h.symbols, h.output, h.fault⟩

theorem read (h : Reflects i t l s) (a : Addr) :
    Reflects i t (l ++ [.call (.read a)]) (s.fetch a).2 := by
  have output := printed_concat t l (.call (.read a)) nofun
  have fault := firstFault_concat i l (.call (.read a)) nofun
  rw [← h.output] at output
  rw [← h.fault] at fault
  rw [Session.fetch]
  cases fetched : s.image.fetch a with
  | ok w =>
    rw [h.image] at fetched
    simp only [Event.fault, fetched, Option.or_none] at fault
    exact ⟨h.image, h.symbols, String.append_empty.symm.trans output.symm, fault.symm⟩
  | error f =>
    rw [h.image] at fetched
    simp only [Event.fault, fetched] at fault
    exact ⟨h.image, h.symbols, String.append_empty.symm.trans output.symm, fault.symm⟩

theorem fst_fetch (h : Reflects i t l s) (a : Addr) : (s.fetch a).1 = i.shown a := by
  rw [Session.fetch, Image.shown, h.image]
  cases i.fetch a <;> rfl

theorem print (h : Reflects i t l s) (c : Call) {text : String}
    (spelled : Event.text (SymbolTable.annotate t) (.call c) = text)
    (harmless : Event.fault i (.call c) = none) :
    Reflects i t (l ++ [.call c]) { s with output := s.output ++ text } := by
  have output := printed_concat t l (.call c) nofun
  have fault := firstFault_concat i l (.call c) nofun
  rw [← h.output, spelled] at output
  rw [← h.fault, harmless, Option.or_none] at fault
  exact ⟨h.image, h.symbols, output.symm, fault.symm⟩

theorem writeAddress (h : Reflects i t l s) (a : Addr) :
    Reflects i t (l ++ [.call (.address a)]) (s.writeAddress a) := by
  have spelled : Event.text (SymbolTable.annotate t) (.call (.address a)) =
      SymbolTable.annotate s.symbols a := by
    rw [h.symbols]
    rfl
  exact h.print (.address a) spelled rfl

theorem write (h : Reflects i t l s) (text : String) :
    Reflects i t (l ++ [.call (.text text)]) (s.write text).2 :=
  h.print (.text text) rfl rfl

theorem popOutput (h : Reflects i t l s) : Reflects i t (l ++ [.outputTaken]) s.popOutput.2 := by
  have output : printed t (l ++ [.outputTaken]) = "" := by
    rw [printed, since_concat_self]
    rfl
  have fault := firstFault_concat i l .outputTaken nofun
  rw [← h.fault] at fault
  exact ⟨h.image, h.symbols, output.symm, Option.or_none.symm.trans fault.symm⟩

theorem popFault (h : Reflects i t l s) : Reflects i t (l ++ [.faultTaken]) s.popFault.2 := by
  have output := printed_concat t l .faultTaken nofun
  have fault : firstFault i (l ++ [.faultTaken]) = none := by
    rw [firstFault, since_concat_self]
    rfl
  rw [← h.output] at output
  exact ⟨h.image, h.symbols, String.append_empty.symm.trans output.symm, fault.symm⟩

theorem replay (h : Reflects i t l s) (calls : List Call) :
    Reflects i t (l ++ calls.map .call) (host.replay calls s) := by
  induction calls generalizing l s with
  | nil => rwa [List.map_nil, List.append_nil]
  | cons c calls ih =>
    rw [List.map_cons, List.append_cons]
    cases c with
    | read a => exact ih (h.read a)
    | address a => exact ih (h.writeAddress a)
    | text s => exact ih (h.write s)

theorem disassemble (h : Reflects i t l s) (loc : Addr) (raw : Bool) :
    Reflects i t (l ++ Event.ofInstruction i raw loc) (host.disassemble loc raw s).2 := by
  have fetched : (host.fetch loc s).1 = i.shown loc := h.fst_fetch loc
  rw [Host.disassemble_eq_replay, fetched, Event.ofInstruction, Recorder.trace_eq,
    ← Recorder.printed_eq, List.map_cons, List.append_cons]
  exact ((h.read loc).noteAll _).replay _

theorem disassembleMany (h : Reflects i t l s) (start : Addr) (count : Nat) (raw : Bool) :
    Reflects i t
      (l ++ (List.range count).flatMap fun k =>
        Event.ofInstruction i raw (start + BitVec.ofNat 32 (4 * k)))
      (host.disassembleMany raw count start s).2 := by
  induction count generalizing start l s with
  | zero =>
    rw [List.range_zero, List.flatMap_nil, List.append_nil]
    exact h
  | succ count ih =>
    have rest := ih (h.disassemble start raw) (start + 4)
    simp only [Addr.add_four_add] at rest
    rw [List.range_succ_eq_map, List.flatMap_cons, List.flatMap_map, ← List.append_assoc,
      Nat.mul_zero, BitVec.add_zero]
    exact rest

theorem action (h : Reflects i t l s) (a : Action) :
    Reflects i t (l ++ Event.ofAction i a) (a.apply s) := by
  cases a with
  | read a => exact h.read a
  | printAddress a => exact h.writeAddress a
  | print text => exact h.write text
  | disassemble loc raw => exact h.disassemble loc raw
  | disassembleMany start count raw => exact h.disassembleMany start count raw
  | takeOutput => exact h.popOutput
  | takeFault => exact h.popFault

/-- A session reflects all that has happened to it. -/
theorem after (i : Image) (t : Option SymbolTable) (l : List Action) :
    Reflects i t (history i l) (after i t l) := by
  induction l using List.reverseRecOn with
  | nil => exact start i t
  | append_singleton l a ih =>
    rw [Session.after, List.foldl_concat, history, List.flatMap_append, List.flatMap_singleton]
    exact ih.action a

end Reflects

/-- Whatever the calls on a session were, it shows what it was made of, the text since it was last
taken and the first fault since one was last taken; and a read faults for its address alone. -/
theorem after_shows (i : Image) (t : Option SymbolTable) (l : List Action) :
    (after i t l).image = i ∧ (after i t l).symbols = t ∧
    (after i t l).output = printed t (history i l) ∧
    (after i t l).fault = firstFault i (history i l) ∧
    ∀ a, ((after i t l).fetch a).2.output = (after i t l).output ∧
      (i.HasWord a ↔
        ∀ k < 4, i.base.toNat ≤ a.toNat + k ∧ a.toNat + k < i.base.toNat + i.data.size) ∧
      (¬4 ∣ a.toNat →
        Event.fault i (.call (.read a)) = some (.unaligned a) ∧ ((after i t l).fetch a).1 = 0) ∧
      (4 ∣ a.toNat → ¬i.HasWord a →
        Event.fault i (.call (.read a)) = some (.outOfBounds a) ∧ ((after i t l).fetch a).1 = 0) ∧
      (4 ∣ a.toNat → i.HasWord a →
        Event.fault i (.call (.read a)) = none ∧
        ∃ _ : a.toNat - i.base.toNat + 3 < i.data.size, ((after i t l).fetch a).1 =
          .ofBytes i.data[a.toNat - i.base.toNat] i.data[a.toNat - i.base.toNat + 1]
            i.data[a.toNat - i.base.toNat + 2] i.data[a.toNat - i.base.toNat + 3]) := by
  have h := Reflects.after i t l
  have aligned {a : Addr} : 4 ∣ a.toNat ↔ a.Aligned := by
    rw [Addr.aligned_iff, Nat.dvd_iff_mod_eq_zero]
  refine ⟨h.image, h.symbols, h.output, h.fault, fun a => ⟨?_, Image.hasWord_iff, ?_, ?_, ?_⟩⟩
  · have read := (h.read a).output
    rw [printed_concat t _ (.call (.read a)) nofun, ← h.output] at read
    exact read.trans String.append_empty
  · intro odd
    have fetched : i.fetch a = .error (.unaligned a) :=
      Image.fetch_of_not_aligned fun even => odd (aligned.2 even)
    rw [h.fst_fetch, Image.shown, Event.fault, fetched]
    exact ⟨rfl, rfl⟩
  · intro even outside
    have fetched := Image.fetch_of_not_hasWord (aligned.1 even) outside
    rw [h.fst_fetch, Image.shown, Event.fault, fetched]
    exact ⟨rfl, rfl⟩
  · intro even inside
    obtain ⟨room, fetched⟩ := Image.fetch_of_hasWord (aligned.1 even) inside
    rw [h.fst_fetch, Image.shown, Event.fault, fetched]
    exact ⟨rfl, room, rfl⟩

/-- An image that starts at an odd address and passes the top. -/
def topImage : Image := ⟨0xfffffff9, ⟨#[1, 2, 3, 0x1e, 0xff, 0x2f, 0xe1, 4, 5, 6]⟩⟩

def topCalls : List Action :=
  [.read 0xfffffffe, .takeFault, .print "lost", .takeOutput, .print "kept\n",
    .disassembleMany 0xfffffffc 2 false, .read 2]

theorem after_shows_top :
    (after topImage none topCalls).output = "kept\nbx\tlr\nandeq\tr0, r0, r0\n" ∧
    (after topImage none topCalls).fault = some (.outOfBounds 0) ∧
    Event.fault topImage (.call (.read 2)) = some (.unaligned 2) ∧
    Event.fault topImage (.call (.read 0xfffffff8)) = some (.outOfBounds 0xfffffff8) ∧
    ((after topImage none topCalls).fetch 0xfffffffc).1 = 0xe12fff1e := by
  obtain ⟨-, -, output, fault, reads⟩ := after_shows topImage none topCalls
  obtain ⟨-, -, odd, -, -⟩ := reads 2
  obtain ⟨-, -, -, below, -⟩ := reads 0xfffffff8
  obtain ⟨-, -, -, -, inside⟩ := reads 0xfffffffc
  obtain ⟨-, _, word⟩ := inside (by decide) (by decide)
  refine ⟨?_, ?_, (odd (by decide)).1, (below (by decide) (by decide)).1,
    word.trans (by decide +revert +kernel)⟩
  · rw [output]
    decide +kernel
  · rw [fault]
    decide +kernel

end Session

end Disarm
