import Disarm.Proofs.Headings
import Disarm.Proofs.RoundTrip
/-!
Line ends of a listing. Instructions, headings and blank lines have one each. The names of symbols are
written as they are, and a name may hold line ends. Main statement: a listing has the line ends of its
instructions, headings and blank lines and those in the names it shows.
-/

namespace Disarm

/-! ### Sums -/

theorem sum_steps {α : Type} (l : List α) (p q : α → Bool) (f : α → Nat) :
    (l.map fun k => 1 + (if p k then 1 else 0) + (if q k then 1 else 0) + f k).sum =
      l.length + l.countP p + l.countP q + (l.map f).sum := by
  induction l with
  | nil => rfl
  | cons k l ih =>
    rw [List.map_cons, List.sum_cons, ih, List.length_cons, List.countP_cons, List.countP_cons,
      List.map_cons, List.sum_cons]
    omega

theorem sum_flatMap {α β : Type} (f : β → Nat) (g : α → List β) (l : List α) :
    ((l.flatMap g).map f).sum = (l.map fun k => ((g k).map f).sum).sum := by
  induction l with
  | nil => rfl
  | cons k l ih =>
    rw [List.flatMap_cons, List.map_append, List.sum_append, ih, List.map_cons, List.sum_cons]

/-! ### Texts -/

def lineEnds (s : String) : Nat := s.toList.count '\n'

theorem lineEnds_append (s t : String) : lineEnds (s ++ t) = lineEnds s + lineEnds t := by
  rw [lineEnds, String.toList_append, List.count_append]
  rfl

theorem lineEnds_join (l : List String) : lineEnds (String.join l) = (l.map lineEnds).sum := by
  rw [lineEnds, String.toList_join, List.count_flatMap]
  rfl

theorem lineEnds_eq_zero {s : String} : lineEnds s = 0 ↔ '\n' ∉ s.toList := List.count_eq_zero

theorem lineEnds_of_letters {s : String} (h : Text.Over Text.Letter s) : lineEnds s = 0 :=
  lineEnds_eq_zero.2 fun lineEnd => absurd (h _ lineEnd) (by decide)

theorem lineEnds_aligned (width n : Nat) : lineEnds (Hex.aligned width n) = 0 := by
  rw [lineEnds_eq_zero, Hex.aligned, String.toList_ofList, List.leftpad, List.mem_append]
  rintro (blank | digit)
  · exact absurd (List.eq_of_mem_replicate blank) (by decide)
  · exact absurd (Text.letter_of_mem_toDigits (by decide) (by decide) digit) (by decide)

/-! ### Steps -/

theorem SymbolTable.lineEnds_label (t : SymbolTable) (address : Option Addr) :
    lineEnds (address.elim "" t.label) =
      ((address.toList.filterMap fun a => (t.owner? a).map Prod.fst).map lineEnds).sum := by
  have opening : lineEnds " <" = 0 := rfl
  have sign : lineEnds "+0x" = 0 := rfl
  have closing : lineEnds ">" = 0 := rfl
  cases address with
  | none => rfl
  | some a =>
    rw [Option.elim_some, Option.toList_some, List.filterMap_cons, label]
    cases t.owner? a with
    | none => rfl
    | some owner =>
      obtain ⟨name, offset⟩ := owner
      change _ = lineEnds name + 0
      dsimp only
      split
      · rw [lineEnds_append, lineEnds_append, opening, closing]
        omega
      · rw [lineEnds_append, lineEnds_append, lineEnds_append, lineEnds_append, opening, sign,
          closing, lineEnds_of_letters (Text.over_hex _)]
        omega

namespace Printout

variable {l : Printout} {loc : Addr} {w : Word}

theorem lineEnds_headingAt (l : Printout) (loc : Addr) (first : Bool) :
    lineEnds (l.headingAt loc first) =
      (if (l.symbols.bind (·.get? loc)).isSome then 1 else 0) +
      (if first = false ∧ (l.symbols.bind (·.get? loc)).isSome then 1 else 0) +
      ((l.symbols.bind (·.get? loc)).toList.map lineEnds).sum := by
  have opening : lineEnds "<" = 0 := rfl
  have closing : lineEnds ">:\n" = 1 := rfl
  rw [headingAt]
  cases l.symbols.bind (·.get? loc) with
  | none => cases first <;> rfl
  | some name =>
    dsimp only
    rw [lineEnds_append, lineEnds_append, lineEnds_append, opening, closing]
    cases first with
    | true =>
      change 0 + 0 + lineEnds name + 1 = 1 + 0 + (lineEnds name + 0)
      omega
    | false =>
      change 1 + 0 + lineEnds name + 1 = 1 + 1 + (lineEnds name + 0)
      omega

/-- The names that the step at an address shows: of the symbol that starts there, and of the symbol
that a printed address belongs to. -/
def namesAt (l : Printout) (loc : Addr) : List String :=
  (l.symbols.bind (·.get? loc)).toList ++
    ((l.callsAt loc).filterMap Call.address?).filterMap fun a =>
      (l.symbols.bind (·.owner? a)).map Prod.fst

theorem lineEnds_blockAt (h : l.image.fetch loc = .ok w) (t : SymbolTable) (first : Bool) :
    lineEnds ((l.named t).blockAt first loc).text =
      1 + (if (t.get? loc).isSome then 1 else 0) +
        (if first = false ∧ (t.get? loc).isSome then 1 else 0) +
        (((l.named t).namesAt loc).map lineEnds).sum := by
  obtain ⟨-, -, -, body, clean, -, line⟩ := annotates_of_fetch h t first
  have shown : l.image.shown loc = w := by rw [Image.shown, h]
  have addresses : ((l.named t).callsAt loc).filterMap Call.address? =
      (w.distance?.map loc.fromCounter).toList := by
    change (Recorder.trace loc (l.image.shown loc) l.raw).filterMap Call.address? = _
    rw [shown]
    exact Recorder.addresses_trace loc w l.raw
  have heading : lineEnds ((l.named t).blockAt first loc).heading = _ :=
    (l.named t).lineEnds_headingAt loc first
  have column : lineEnds ((l.named t).blockAt first loc).column = 0 := by
    rw [blockAt, lineEnds_append, lineEnds_aligned]
    rfl
  have names : (((l.named t).namesAt loc).map lineEnds).sum =
      ((t.get? loc).toList.map lineEnds).sum +
        lineEnds ((w.distance?.map loc.fromCounter).elim "" t.label) := by
    rw [namesAt, addresses, List.map_append, List.sum_append, SymbolTable.lineEnds_label]
    rfl
  have ending : lineEnds "\n" = 1 := rfl
  rw [Block.text, lineEnds_append, lineEnds_append, heading, column, line, lineEnds_append,
    lineEnds_append, lineEnds_eq_zero.2 clean, ending, names]
  change (if (t.get? loc).isSome then 1 else 0) +
    (if first = false ∧ (t.get? loc).isSome then 1 else 0) +
    ((t.get? loc).toList.map lineEnds).sum + 0 + _ = _
  omega

/-! ### Whole listings -/

def headed (symbols : List Elf.Symbol) (start : Addr) (n : Nat) : List Nat :=
  (List.range n).filter fun k => ∃ s ∈ symbols, s.address = start + BitVec.ofNat 32 (4 * k)

def namesFrom (l : Printout) (start : Addr) (n : Nat) : List String :=
  (List.range n).flatMap fun k => l.namesAt (start + BitVec.ofNat 32 (4 * k))

/-- Only names of symbols are shown. -/
theorem exists_of_mem_namesFrom {symbols : List Elf.Symbol} {start : Addr} {n : Nat}
    {name : String} (h : name ∈ (l.named (.ofElf symbols)).namesFrom start n) :
    ∃ s ∈ symbols, s.name = name := by
  have starting {a : Addr} {name : String} (h : (SymbolTable.ofElf symbols).get? a = some name) :
      ∃ s ∈ symbols, s.name = name := by
    obtain ⟨front, s, back, rfl, -, -, named⟩ := SymbolTable.get?_ofElf.1 h
    exact ⟨s, List.mem_append_right front List.mem_cons_self, named⟩
  obtain ⟨k, -, h⟩ := List.mem_flatMap.1 h
  rcases List.mem_append.1 h with h | h
  · exact starting (Option.mem_toList.1 h)
  · obtain ⟨a, -, h⟩ := List.mem_filterMap.1 h
    obtain ⟨⟨_, offset⟩, owned, rfl⟩ := Option.map_eq_some_iff.1 h
    obtain ⟨s, nearest, rfl, -⟩ := SymbolTable.owner?_eq_some owned
    obtain ⟨here, -⟩ := SymbolTable.nearest?_eq_some.1 nearest
    apply starting (a := s.start)
    rw [SymbolTable.get?_eq, here]
    rfl

theorem lineEnds_blocks (l : Printout) (symbols : List Elf.Symbol) {start : Addr} {n : Nat}
    (good : ∀ k < n, ∃ w, l.image.fetch (start + BitVec.ofNat 32 (4 * k)) = .ok w) :
    lineEnds (String.join ((List.range n).map fun k =>
      ((l.named (.ofElf symbols)).blockAt (k = 0) (start + BitVec.ofNat 32 (4 * k))).text)) =
      n + (headed symbols start n).length + (headed symbols start n).countP (· ≠ 0) +
        (((l.named (.ofElf symbols)).namesFrom start n).map lineEnds).sum := by
  let starts (k : Nat) : Bool :=
    ((SymbolTable.ofElf symbols).get? (start + BitVec.ofNat 32 (4 * k))).isSome
  have starts_iff (k : Nat) :
      starts k = decide (∃ s ∈ symbols, s.address = start + BitVec.ofNat 32 (4 * k)) :=
    Bool.eq_iff_iff.2 (SymbolTable.isSome_get?_ofElf.trans decide_eq_true_iff.symm)
  -- The first step is the only one whose heading has no blank line.
  have step : ∀ k ∈ List.range n, lineEnds
      ((l.named (.ofElf symbols)).blockAt (k = 0) (start + BitVec.ofNat 32 (4 * k))).text =
        1 + (if starts k then 1 else 0) + (if decide (k ≠ 0) && starts k then 1 else 0) +
          (((l.named (.ofElf symbols)).namesAt (start + BitVec.ofNat 32 (4 * k))).map
            lineEnds).sum := by
    intro k hk
    obtain ⟨w, fetched⟩ := good k (List.mem_range.1 hk)
    rw [lineEnds_blockAt fetched]
    simp only [Bool.and_eq_true, decide_eq_true_iff, decide_eq_false_iff_not, ne_eq, starts]
  have headings : (List.range n).countP starts = (headed symbols start n).length := by
    rw [List.countP_eq_length_filter, headed, funext starts_iff]
  have blanks : (List.range n).countP (fun k => decide (k ≠ 0) && starts k) =
      (headed symbols start n).countP (· ≠ 0) := by
    rw [headed, List.countP_filter]
    congr 1
    funext k
    rw [starts_iff]
  rw [lineEnds_join, List.map_map]
  refine (congrArg List.sum (List.map_congr_left step)).trans ?_
  rw [sum_steps, List.length_range, headings, blanks, namesFrom, sum_flatMap]

/-- A listing has a line end for each instruction, for each heading and for each heading but the first
step's a second one, and besides these the line ends of the names it shows. -/
theorem lineEnds_write (l : Printout) (symbols : List Elf.Symbol) (start : Addr) (count : Nat)
    (aligned : 4 ∣ start.toNat) :
    ∃ (n : Nat) (text : String) (names : List String),
      names = (l.named (.ofElf symbols)).namesFrom start n ∧
      (∀ name ∈ names, ∃ s ∈ symbols, s.name = name) ∧
      ((l.named (.ofElf symbols)).write start count {}).count = .ok n ∧
      ((l.named (.ofElf symbols)).write start count {}).sink.bytes = text.toUTF8 ∧
      lineEnds text = n + (headed symbols start n).length +
        (headed symbols start n).countP (· ≠ 0) + (names.map lineEnds).sum ∧
      (lineEnds text = n + (headed symbols start n).length +
        (headed symbols start n).countP (· ≠ 0) ↔ ∀ name ∈ names, '\n' ∉ name.toList) := by
  have aligned : start.Aligned := Addr.aligned_iff_dvd.2 aligned
  have total := lineEnds_blocks l symbols (n := l.image.wordsFrom start count)
    fun k hk => ⟨_, Image.fetch_of_lt_wordsFrom aligned hk⟩
  refine ⟨l.image.wordsFrom start count, _, _, rfl, fun _ => exists_of_mem_namesFrom,
    count_write_of_aligned aligned count, bytes_write_of_aligned aligned count, total,
    (Eq.congr_left total).trans ?_⟩
  rw [Nat.add_eq_left, List.sum_eq_zero_iff_forall_eq_nat]
  simp only [List.forall_mem_map, lineEnds_eq_zero]

/-- A name with line ends, which makes two lines more. -/
def forgedSymbols : List Elf.Symbol :=
  [⟨"x>:\n    8000:\tmov\tr0, #0x1\n<main", 0x8000, 4, .function, false⟩]

theorem write_forged :
    ((labelled.named (.ofElf forgedSymbols)).write 0x8000 1 {}).count = .ok 1 ∧
    ((labelled.named (.ofElf forgedSymbols)).write 0x8000 1 {}).sink.bytes =
      "<x>:\n    8000:\tmov\tr0, #0x1\n<main>:\n    8000:\tbx\tlr\n".toUTF8 := by
  decide +kernel

theorem lineEnds_write_labelled :
    4 ∣ (0x8000 : Addr).toNat ∧
    (∃ text, ((labelled.named (.ofElf [⟨"loop", 0x8004, 4, .function, false⟩])).write
        0x8000 2 {}).sink.bytes = text.toUTF8 ∧ lineEnds text = 2 + 1 + 1) ∧
    ∃ text, ((labelled.named (.ofElf forgedSymbols)).write 0x8000 1 {}).sink.bytes =
      text.toUTF8 ∧ lineEnds text = 1 + 1 + 0 + 2 := by
  have aligned : 4 ∣ (0x8000 : Addr).toNat := by decide
  have two : ((labelled.named (.ofElf [⟨"loop", 0x8004, 4, .function, false⟩])).write
    0x8000 2 {}).count = .ok 2 := by decide +kernel
  refine ⟨aligned, ?_, ?_⟩
  · obtain ⟨n, text, names, rfl, -, count, bytes, -, clean⟩ :=
      lineEnds_write labelled [⟨"loop", 0x8004, 4, .function, false⟩] 0x8000 2 aligned
    rw [two] at count
    cases count
    exact ⟨text, bytes, clean.2 (by decide +kernel)⟩
  · obtain ⟨n, text, names, rfl, -, count, bytes, total, -⟩ :=
      lineEnds_write labelled forgedSymbols 0x8000 1 aligned
    rw [write_forged.1] at count
    cases count
    exact ⟨text, bytes, total.trans (by decide +kernel)⟩

def forged : ByteArray := Elf.Executable.encode {
  code := [0xe12fff1e]
  entry := 0x8000
  symbols := [⟨"x>:\n    8000:\tmov\tr0, #0x1\n<main", 0x8000, 4, 2⟩] }

theorem exists_forged : ∃ f, Elf.File.ofBytes forged = .ok f ∧ f.symbols = forgedSymbols := by
  have symbols : (Elf.File.ofBytes forged).toOption.map (·.symbols) = some forgedSymbols := by
    decide +kernel
  cases read : Elf.File.ofBytes forged with
  | error e =>
    rw [read] at symbols
    cases symbols
  | ok f =>
    rw [read] at symbols
    exact ⟨f, rfl, Option.some.inj symbols⟩

/-- Names of symbols that are read from a file can add lines to a listing. -/
theorem not_lineEnds_write : ¬∀ (data : ByteArray) (f : Elf.File), Elf.File.ofBytes data = .ok f →
    ∀ (l : Printout) (start : Addr) (count : Nat), 4 ∣ start.toNat →
      ∃ (n : Nat) (text : String),
        ((l.named (.ofElf f.symbols)).write start count {}).count = .ok n ∧
        ((l.named (.ofElf f.symbols)).write start count {}).sink.bytes = text.toUTF8 ∧
        lineEnds text = n + (headed f.symbols start n).length +
          (headed f.symbols start n).countP (· ≠ 0) := by
  intro all
  obtain ⟨f, read, symbols⟩ := exists_forged
  obtain ⟨n, text, count, bytes, total⟩ := all forged f read labelled 0x8000 1 (by decide)
  rw [symbols] at count bytes total
  rw [write_forged.1] at count
  cases count
  rw [← String.toByteArray_inj.1 (write_forged.2.symm.trans bytes)] at total
  exact absurd total (by decide +kernel)

end Printout

end Disarm
