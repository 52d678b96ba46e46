import Disarm.Proofs.Annotation
import Disarm.Proofs.Consecutive
import Disarm.Proofs.EndToEnd
import Disarm.Proofs.LimitedSink
import Disarm.Proofs.SymbolHistory
/-!
Headings of a listing. A heading names the symbol that starts at an address, and of several symbols of
a file at one address that is the last one. Main statements: a listing that starts at a named symbol
opens with the heading of the last symbol there, and a heading stands over an instruction except where a
listing starts astray.
-/

namespace Disarm

/-! ### Tables of a file's symbols -/

namespace SymbolTable

variable {l : List Elf.Symbol} {a : Addr} {name : String}

theorem at?_ofElf (l : List Elf.Symbol) (a : Addr) :
    (ofElf l).at? a =
      (l.reverse.find? (·.address = a)).map fun s => ⟨s.address, s.size, s.name⟩ := by
  rw [ofElf, at?_ofList, lastAt, ← List.map_reverse, List.find?_map]
  rfl

theorem get?_ofElf : (ofElf l).get? a = some name ↔
    ∃ front s back, l = front ++ s :: back ∧ s.address = a ∧ (∀ u ∈ back, u.address ≠ a) ∧
      s.name = name := by
  rw [get?_eq, at?_ofElf, Option.map_map, Option.map_eq_some_iff]
  simp only [List.find?_eq_some_iff_append, decide_eq_true_iff, Bool.not_eq_true',
    decide_eq_false_iff_not, Function.comp_apply]
  constructor
  · rintro ⟨s, ⟨here, back, front, split, later⟩, named⟩
    have order := congrArg List.reverse split
    rw [List.reverse_reverse, List.reverse_append, List.reverse_cons, List.append_assoc] at order
    exact ⟨front.reverse, s, back.reverse, order, here,
      fun u hu => later u (List.mem_reverse.1 hu), named⟩
  · rintro ⟨front, s, back, rfl, here, later, named⟩
    refine ⟨s, ⟨here, back.reverse, front.reverse, ?_, fun u hu => later u (List.mem_reverse.1 hu)⟩,
      named⟩
    rw [List.reverse_append, List.reverse_cons, List.append_assoc]
    rfl

theorem isSome_get?_ofElf : ((ofElf l).get? a).isSome ↔ ∃ s ∈ l, s.address = a := by
  rw [get?_eq, at?_ofElf, Option.isSome_map, Option.isSome_map, List.find?_isSome]
  simp only [List.mem_reverse, decide_eq_true_iff]

end SymbolTable

namespace Printout

variable {l : Printout} {symbols : List Elf.Symbol} {entry start a : Addr} {name : String}
  {count : Nat}

/-! ### The heading at the start -/

theorem wordsFrom_pos (aligned : a.Aligned) (inside : l.image.HasWord a) (positive : 0 < count) :
    0 < l.image.wordsFrom a count := by
  obtain ⟨above, below⟩ := inside
  have multiple := Addr.aligned_iff.1 aligned
  have := a.isLt
  unfold wordSize at below
  unfold Image.wordsFrom wordSize
  rw [if_pos ⟨above, by omega⟩]
  omega

theorem headingAt_first (starts : l.symbols.bind (·.get? a) = some name) :
    l.headingAt a true = "<" ++ name ++ ">:\n" := by
  rw [headingAt, starts]
  rfl

theorem bytes_write_of_hasWord (aligned : a.Aligned) (inside : l.image.HasWord a)
    (positive : 0 < count) :
    ∃ rest, (l.write a count {}).sink.bytes = (l.headingAt a true ++ rest).toUTF8 := by
  obtain ⟨n, hn⟩ := Nat.exists_eq_succ_of_ne_zero (wordsFrom_pos aligned inside positive).ne'
  rw [bytes_write_of_aligned aligned, hn, List.range_succ_eq_map, List.map_cons, String.join_cons,
    Block.text, Nat.mul_zero, BitVec.add_zero, String.append_assoc, String.append_assoc]
  exact ⟨_, rfl⟩

/-- A listing from a named symbol opens with the heading of the last symbol at its address, which
is the named one unless a later symbol stands there too. -/
theorem write_from_symbol
    (found : Start.locate entry symbols none (some name) = .ok a)
    (inside : l.image.HasWord a) (positive : 0 < count) :
    ∃ y front s back rest, symbols.find? (·.name = name) = some y ∧ y.address = a ∧
      symbols = front ++ s :: back ∧ s.address = a ∧ (∀ u ∈ back, u.address ≠ a) ∧
      ((l.named (.ofElf symbols)).write a count {}).sink.bytes =
        ("<" ++ s.name ++ ">:\n" ++ rest).toUTF8 ∧
      ((∀ u ∈ symbols, u.address = a → u.name = name) → s.name = name) := by
  obtain ⟨⟨y, hy, rfl⟩, aligned⟩ := Start.resolves_of_locate found
  have listed : ((SymbolTable.ofElf symbols).get? y.address).isSome :=
    SymbolTable.isSome_get?_ofElf.2 ⟨y, List.mem_of_find?_eq_some hy, rfl⟩
  obtain ⟨shown, hshown⟩ := Option.isSome_iff_exists.1 listed
  obtain ⟨front, s, back, split, here, later, rfl⟩ := SymbolTable.get?_ofElf.1 hshown
  obtain ⟨rest, text⟩ :=
    bytes_write_of_hasWord (l := l.named (.ofElf symbols)) aligned inside positive
  rw [headingAt_first (l := l.named (.ofElf symbols)) hshown] at text
  refine ⟨y, front, s, back, rest, hy, rfl, split, here, later, text, fun same => same s ?_ here⟩
  rw [split]
  exact List.mem_append_right front List.mem_cons_self

/-- Two functions at one address, and a third one behind them. -/
def aliased : List Elf.Symbol :=
  [⟨"alias", 0x8000, 4, .function, false⟩, ⟨"main", 0x8000, 4, .function, false⟩,
    ⟨"next", 0x8004, 4, .function, false⟩]

theorem write_from_symbol_aliased :
    Start.locate 0 aliased none (some "alias") = .ok 0x8000 ∧
    labelled.image.HasWord 0x8000 ∧
    (∃ rest, ((labelled.named (.ofElf aliased)).write 0x8000 1 {}).sink.bytes =
      ("<main>:\n" ++ rest).toUTF8) ∧
    Start.locate 0 aliased none (some "next") = .ok 0x8004 ∧
    labelled.image.HasWord 0x8004 ∧
    ∃ rest, ((labelled.named (.ofElf aliased)).write 0x8004 1 {}).sink.bytes =
      ("<next>:\n" ++ rest).toUTF8 := by
  have first : Start.locate 0 aliased none (some "alias") = .ok 0x8000 := by decide
  have third : Start.locate 0 aliased none (some "next") = .ok 0x8004 := by decide
  have low : labelled.image.HasWord 0x8000 := by decide
  have high : labelled.image.HasWord 0x8004 := by decide
  refine ⟨first, low, ?_, third, high, ?_⟩
  · obtain ⟨y, front, s, back, rest, -, -, split, here, later, text, -⟩ :=
      write_from_symbol (l := labelled) first low (by decide : 0 < 1)
    -- The first symbol is not the last one at its address, and the third stands elsewhere.
    have last : s.name = "main" := by
      obtain _ | ⟨_, _ | ⟨_, _ | ⟨_, front⟩⟩⟩ := front
      · cases split
        exact absurd rfl (later ⟨"main", 0x8000, 4, .function, false⟩ List.mem_cons_self)
      · cases split
        rfl
      · cases split
        exact absurd here (by decide)
      · cases front <;> cases split
    rw [last] at text
    exact ⟨rest, text⟩
  · obtain ⟨y, front, s, back, rest, -, -, -, -, -, text, same⟩ :=
      write_from_symbol (l := labelled) third high (by decide : 0 < 1)
    rw [same (by decide)] at text
    exact ⟨rest, text⟩

/-- The heading at the start need not have the name that was asked for. -/
theorem not_write_from_symbol : ¬∀ (l : Printout) (symbols : List Elf.Symbol) (entry a : Addr)
    (name : String) (count : Nat), Start.locate entry symbols none (some name) = .ok a →
      l.image.HasWord a → 0 < count →
      ∃ rest, ((l.named (.ofElf symbols)).write a count {}).sink.bytes =
        ("<" ++ name ++ ">:\n" ++ rest).toUTF8 := by
  intro opens
  obtain ⟨rest, text⟩ := opens labelled aliased 0 0x8000 "alias" 1 (by decide) (by decide) (by decide)
  have written : ((labelled.named (.ofElf aliased)).write 0x8000 1 {}).sink.bytes =
      "<main>:\n    8000:\tbx\tlr\n".toUTF8 := by decide +kernel
  have same := congrArg String.toList (String.toByteArray_inj.1 (text.symm.trans written))
  rw [String.toList_append] at same
  have opening : ("<" ++ "alias" ++ ">:\n").toList <+:
      "<main>:\n    8000:\tbx\tlr\n".toList := ⟨rest.toList, same⟩
  exact absurd opening (by decide +kernel)

/-! ### Headings and instructions -/

/-- A heading stands over an instruction: it names the symbol that starts at an address, and of the
parts after it the first is the line of the word there. -/
def Announces (l : Printout) (first : Bool) (heading : String) (after : List Part) : Prop :=
  ∃ loc name w rest, l.symbols.bind (·.get? loc) = some name ∧
    heading = (if first then "" else "\n") ++ "<" ++ name ++ ">:\n" ∧
    l.image.fetch loc = .ok w ∧
    after = .line (Hex.aligned 8 loc.toNat ++ ":\t" ++
      Transcript.line (SymbolTable.annotate l.symbols) l.raw loc w) :: rest

/-- A listing starts astray at a symbol: its heading is written before the word is refused. -/
def Dangles (l : Printout) (start : Addr) (count : Nat) : Prop :=
  l.StartsAstray start count ∧ (l.symbols.bind (·.get? start)).isSome

instance (l : Printout) (start : Addr) (count : Nat) : Decidable (l.Dangles start count) :=
  inferInstanceAs (Decidable (_ ∧ _))

theorem line_row_of_fetch {loc : Addr} {w : Word} (h : l.image.fetch loc = .ok w) :
    (l.row loc).line = .ok (Transcript.line (SymbolTable.annotate l.symbols) l.raw loc w) := by
  obtain ⟨log, e⟩ := row_of_fetch h
  rw [e, Transcript.line_eq]

theorem headingAt_ne_empty {loc : Addr} {first : Bool} (h : l.headingAt loc first ≠ "") :
    ∃ name, l.symbols.bind (·.get? loc) = some name ∧
      l.headingAt loc first = (if first then "" else "\n") ++ "<" ++ name ++ ">:\n" := by
  unfold headingAt at h ⊢
  split at h
  · exact absurd rfl h
  · next name starts => exact ⟨name, starts, rfl⟩

theorem announces_partsOf {locs : List Addr} (n : Nat)
    (good : ∀ loc ∈ locs, ∃ w, l.image.fetch loc = .ok w) {before after : List Part}
    {heading : String} (split : partsOf n (locs.map l.row) = before ++ .heading heading :: after)
    (filled : heading ≠ "") : l.Announces (n = 0 ∧ before = []) heading after := by
  induction locs generalizing n before with
  | nil => exact absurd split.symm (by simp [partsOf])
  | cons loc locs ih =>
    obtain ⟨w, fetched⟩ := good loc List.mem_cons_self
    rw [List.map_cons, partsOf, line_row_of_fetch fetched, headingText_row] at split
    -- Each row has two parts, so `before` is empty or ends in a later row.
    cases before with
    | nil =>
      obtain ⟨same, behind⟩ := List.cons.inj split
      cases same
      obtain ⟨name, starts, text⟩ := headingAt_ne_empty filled
      refine ⟨loc, name, w, _, starts, ?_, fetched, behind.symm⟩
      rw [text]
      simp
    | cons p before =>
      obtain ⟨-, behind⟩ := List.cons.inj split
      cases before with
      | nil => cases behind
      | cons q before =>
        obtain ⟨-, behind⟩ := List.cons.inj behind
        obtain ⟨loc, name, w, rest, starts, text, found⟩ :=
          ih (n + 1) (fun loc hloc => good loc (List.mem_cons_of_mem _ hloc)) behind
        refine ⟨loc, name, w, rest, starts, ?_, found⟩
        rw [text]
        simp

theorem exists_rows_of_not_startsAstray (straight : ¬l.StartsAstray start count) :
    ∃ locs : List Addr, l.rows count start = locs.map l.row ∧
      ∀ loc ∈ locs, ∃ w, l.image.fetch loc = .ok w := by
  by_cases aligned : start.Aligned
  · refine ⟨(List.range (l.image.wordsFrom start count)).map
      fun k => start + BitVec.ofNat 32 (4 * k), ?_, ?_⟩
    · rw [rows_eq count aligned, List.map_map]
      rfl
    · intro loc hloc
      obtain ⟨k, hk, rfl⟩ := List.mem_map.1 hloc
      exact ⟨_, Image.fetch_of_lt_wordsFrom aligned (List.mem_range.1 hk)⟩
  · refine ⟨[], ?_, nofun⟩
    rw [rows_of_not_aligned aligned, if_neg]
    · rfl
    · exact fun h => straight ⟨fun even => aligned (Addr.aligned_iff_dvd.2 even), h⟩

theorem announces_of_not_startsAstray (straight : ¬l.StartsAstray start count)
    {before after : List Part} {heading : String}
    (split : l.parts start count = before ++ .heading heading :: after) (filled : heading ≠ "") :
    l.Announces (before = []) heading after := by
  obtain ⟨locs, rows, good⟩ := exists_rows_of_not_startsAstray straight
  rw [parts, rows] at split
  have found := announces_partsOf 0 good split filled
  simp only [true_and] at found
  exact found

theorem parts_eq_nil_of_not_startsAstray (straight : ¬l.StartsAstray start count)
    (none : Part.lines (l.parts start count) = 0) : l.parts start count = [] := by
  obtain ⟨locs, rows, good⟩ := exists_rows_of_not_startsAstray straight
  rw [parts, rows] at none ⊢
  cases locs with
  | nil => rfl
  | cons loc locs =>
    obtain ⟨w, fetched⟩ := good loc List.mem_cons_self
    rw [List.map_cons, partsOf, line_row_of_fetch fetched] at none
    cases none

theorem parts_of_startsAstray (astray : l.StartsAstray start count) :
    l.parts start count = [.heading (l.headingAt start true)] := by
  obtain ⟨odd, inside⟩ := astray
  have odd : ¬start.Aligned := fun even => odd (Addr.aligned_iff_dvd.1 even)
  have faulted : (l.row start).line = .error (.unaligned start) := by
    rw [line_row, fault_one, Session.Event.fault, Image.fetch_of_not_aligned odd]
  rw [parts, rows_of_not_aligned odd, if_pos inside, partsOf, faulted]
  rfl

theorem write_eq_parts (l : Printout) (start : Addr) (count : Nat) :
    (l.write start count {}).sink.bytes = Part.joined (l.parts start count) ∧
    (l.write start count {}).count = .ok (Part.lines (l.parts start count)) := by
  rw [write_sink_eq, write_count_eq, Part.write_unlimited, ByteArray.empty_append]
  exact ⟨rfl, rfl⟩

/-- Every heading stands over an instruction, and nothing is written where no instruction is, except by
a listing that starts astray at a symbol. That one writes the heading alone. -/
theorem headings_announce_iff (l : Printout) (start : Addr) (count : Nat) :
    (l.write start count {}).sink.bytes = Part.joined (l.parts start count) ∧
    ((∀ before heading after, l.parts start count = before ++ .heading heading :: after →
      heading ≠ "" → l.Announces (before = []) heading after) ↔ ¬l.Dangles start count) ∧
    ((l.write start count {}).count = .ok 0 → ¬l.Dangles start count →
      (l.write start count {}).sink.bytes = .empty) ∧
    (l.Dangles start count → ∃ name, l.symbols.bind (·.get? start) = some name ∧
      (l.write start count {}).count = .ok 0 ∧
      (l.write start count {}).sink.bytes = ("<" ++ name ++ ">:\n").toUTF8) := by
  obtain ⟨bytes, lines⟩ := write_eq_parts l start count
  rw [bytes, lines]
  -- A listing that starts astray has one part, and all the rest comes to whether it is blank.
  by_cases astray : l.StartsAstray start count
  · rw [parts_of_startsAstray astray]
    cases starts : l.symbols.bind (·.get? start) with
    | none =>
      have straight : ¬l.Dangles start count := fun dangles => by
        rw [Dangles, starts] at dangles
        cases dangles.2
      have blank : l.headingAt start true = "" := by rw [headingAt, starts]
      rw [blank]
      refine ⟨rfl, iff_of_true ?_ straight, fun _ _ => rfl, fun dangles => absurd dangles straight⟩
      intro before heading after split filled
      have mem : Part.heading heading ∈ [Part.heading ""] := by
        rw [split]
        exact List.mem_append_right before List.mem_cons_self
      exact absurd (Part.heading.inj (List.mem_singleton.1 mem)) filled
    | some name =>
      have dangles : l.Dangles start count := ⟨astray, by rw [starts]; rfl⟩
      rw [headingAt_first starts]
      refine ⟨rfl, iff_of_false ?_ (not_not_intro dangles), fun _ h => absurd dangles h,
        fun _ => ⟨name, rfl, rfl, ByteArray.append_empty⟩⟩
      intro law
      obtain ⟨_, _, _, _, -, -, -, next⟩ := law [] _ [] rfl (by simp)
      cases next
  · have straight : ¬l.Dangles start count := fun dangles => astray dangles.1
    refine ⟨rfl, iff_of_true ?_ straight, fun none _ => ?_, fun h => absurd h straight⟩
    · exact fun _ _ _ => announces_of_not_startsAstray astray
    · rw [parts_eq_nil_of_not_startsAstray astray (Except.ok.inj none)]
      rfl

def strayed : Printout := labelled.named (.ofList [⟨0x8002, 4, "odd"⟩])

theorem headings_announce_iff_strayed :
    strayed.Dangles 0x8002 1 ∧ (strayed.write 0x8002 1 {}).count = .ok 0 ∧
    (strayed.write 0x8002 1 {}).sink.bytes = "<odd>:\n".toUTF8 ∧
    ¬strayed.Dangles 0x8002 0 ∧ (strayed.write 0x8002 0 {}).sink.bytes = .empty ∧
    ¬labelled.Dangles 0x8000 64 ∧
    ∀ before heading after, labelled.parts 0x8000 64 = before ++ .heading heading :: after →
      heading ≠ "" → labelled.Announces (before = []) heading after := by
  obtain ⟨-, -, -, alone⟩ := headings_announce_iff strayed 0x8002 1
  obtain ⟨-, -, nothing, -⟩ := headings_announce_iff strayed 0x8002 0
  obtain ⟨-, announce, -, -⟩ := headings_announce_iff labelled 0x8000 64
  have dangles : strayed.Dangles 0x8002 1 := by decide
  have idle : ¬strayed.Dangles 0x8002 0 := by decide
  have straight : ¬labelled.Dangles 0x8000 64 := by decide
  obtain ⟨name, starts, none, text⟩ := alone dangles
  obtain rfl : "odd" = name := Option.some.inj starts
  exact ⟨dangles, none, text, idle, nothing rfl idle, straight, announce.2 straight⟩

/-- A heading may be all that is written. -/
theorem not_headings_announce : ¬∀ (l : Printout) (start : Addr) (count : Nat),
    (∀ before heading after, l.parts start count = before ++ .heading heading :: after →
      heading ≠ "" → l.Announces (before = []) heading after) ∧
    ((l.write start count {}).count = .ok 0 → (l.write start count {}).sink.bytes = .empty) := by
  intro all
  have empty := (all strayed 0x8002 1).2 (by decide +kernel)
  have written : (strayed.write 0x8002 1 {}).sink.bytes = "<odd>:\n".toUTF8 := by decide +kernel
  exact absurd (written.symm.trans empty) (by decide)

end Printout

end Disarm
