import Disarm.Proofs.Refusals
import Disarm.Proofs.Rows
import Disarm.Start
/-!
Where a listing starts. A start that is given counts alone; else of the symbols with a name the
first one counts, however it fares, and without a name the entry point does. Main statement: the start
is the multiple of four that is chosen so, each refusal has one reason, and a function that is started
at stands where its file says.
-/

namespace Disarm

namespace Start

inductive First (name : String) : List Elf.Symbol → Elf.Symbol → Prop where
  | head {y : Elf.Symbol} {l : List Elf.Symbol} (named : y.name = name) : First name (y :: l) y
  | later {x y : Elf.Symbol} {l : List Elf.Symbol} (other : x.name ≠ name) (rest : First name l y) :
    First name (x :: l) y

/-- The address that is asked for. Thumb code is chosen neither by name nor as the entry point. -/
inductive Chooses (entry : Addr) (symbols : List Elf.Symbol) :
    Option Addr → Option String → Addr → Prop where
  | given (a : Addr) (symbol : Option String) : Chooses entry symbols (some a) symbol a
  | named {name : String} {y : Elf.Symbol} (first : First name symbols y) (arm : y.thumb = false) :
    Chooses entry symbols none (some name) y.address
  | entry (even : entry.toNat % 2 = 0) : Chooses entry symbols none none entry

/-- Why there is no start. The alignment of an address matters only once it is chosen. -/
inductive Refuses (entry : Addr) (symbols : List Elf.Symbol) :
    Option Addr → Option String → StartError → Prop where
  | unknownSymbol {name : String} (missing : ∀ y ∈ symbols, y.name ≠ name) :
    Refuses entry symbols none (some name) (.unknownSymbol name)
  | thumbSymbol {name : String} {y : Elf.Symbol} (first : First name symbols y)
    (thumb : y.thumb = true) : Refuses entry symbols none (some name) (.thumbSymbol name)
  | thumbEntry (odd : entry.toNat % 2 = 1) : Refuses entry symbols none none (.thumbEntry entry)
  | unaligned {start : Option Addr} {symbol : Option String} {a : Addr}
    (chosen : Chooses entry symbols start symbol a) (astray : ¬4 ∣ a.toNat) :
    Refuses entry symbols start symbol (.unaligned a)

variable {entry a : Addr} {symbols : List Elf.Symbol} {start : Option Addr} {symbol : Option String}
  {name : String} {y : Elf.Symbol} {e : StartError}

theorem First.mem (h : First name symbols y) : y ∈ symbols := by
  induction h with
  | head named => exact List.mem_cons_self
  | later other rest ih => exact List.mem_cons_of_mem _ ih

theorem First.find? (h : First name symbols y) : symbols.find? (·.name = name) = some y := by
  induction h with
  | head named => exact List.find?_cons_of_pos (decide_eq_true named)
  | later other rest ih =>
    rw [List.find?_cons_of_neg (by simpa using other)]
    exact ih

theorem missing_or_first (name : String) (symbols : List Elf.Symbol) :
    (∀ y ∈ symbols, y.name ≠ name) ∨ ∃ y, First name symbols y := by
  induction symbols with
  | nil => exact .inl nofun
  | cons x l ih =>
    by_cases named : x.name = name
    · exact .inr ⟨x, .head named⟩
    · rcases ih with missing | ⟨y, first⟩
      · exact .inl (List.forall_mem_cons.2 ⟨named, missing⟩)
      · exact .inr ⟨y, .later named first⟩

/-! ### Choice and alignment -/

theorem choose_of_chooses (h : Chooses entry symbols start symbol a) :
    choose entry symbols start symbol = .ok a := by
  cases h with
  | given => rfl
  | named first arm =>
    rw [choose, ofSymbol, first.find?]
    simp only [arm, Bool.false_eq_true, if_false]
  | entry even =>
    rw [choose, ofEntry, if_neg]
    rw [Elf.Declaration.odd_iff, even]
    exact Nat.zero_ne_one

theorem locate_of_choose (h : choose entry symbols start symbol = .ok a) :
    locate entry symbols start symbol =
      if 4 ∣ a.toNat then .ok a else .error (.unaligned a) := by
  rw [locate, h]
  simp only [← Addr.aligned_iff_dvd]
  rfl

theorem locate_of_chooses (h : Chooses entry symbols start symbol a) (aligned : 4 ∣ a.toNat) :
    locate entry symbols start symbol = .ok a := by
  rw [locate_of_choose (choose_of_chooses h), if_pos aligned]

theorem locate_of_refuses (h : Refuses entry symbols start symbol e) :
    locate entry symbols start symbol = .error e := by
  cases h with
  | @unknownSymbol name missing =>
    have none : symbols.find? (·.name = name) = none := by
      simpa only [List.find?_eq_none, decide_eq_true_eq] using missing
    rw [locate, choose, ofSymbol, none]
    rfl
  | thumbSymbol first thumb =>
    rw [locate, choose, ofSymbol, first.find?]
    simp only [thumb, if_true]
    rfl
  | thumbEntry odd =>
    rw [locate, choose, ofEntry, if_pos ((Elf.Declaration.odd_iff entry).2 odd)]
    rfl
  | unaligned chosen astray => rw [locate_of_choose (choose_of_chooses chosen), if_neg astray]

theorem chooses_of_not_refuses (sound : ∀ e, ¬Refuses entry symbols start symbol e) :
    ∃ a, Chooses entry symbols start symbol a ∧ 4 ∣ a.toNat := by
  have aligned {a : Addr} (chosen : Chooses entry symbols start symbol a) : 4 ∣ a.toNat :=
    not_not.1 fun astray => sound _ (.unaligned chosen astray)
  cases start with
  | some a => exact ⟨a, .given a symbol, aligned (.given a symbol)⟩
  | none =>
    cases symbol with
    | some name =>
      rcases missing_or_first name symbols with missing | ⟨y, first⟩
      · exact absurd (.unknownSymbol missing) (sound _)
      · have arm : y.thumb = false :=
          Bool.eq_false_iff.2 fun thumb => sound _ (.thumbSymbol first thumb)
        exact ⟨y.address, .named first arm, aligned (.named first arm)⟩
    | none =>
      rcases Nat.mod_two_eq_zero_or_one entry.toNat with even | odd
      · exact ⟨entry, .entry even, aligned (.entry even)⟩
      · exact absurd (.thumbEntry odd) (sound _)

theorem locate_eq_error :
    locate entry symbols start symbol = .error e ↔ Refuses entry symbols start symbol e := by
  have refused : ∀ d, Refuses entry symbols start symbol d →
      locate entry symbols start symbol = .error d := fun _ => locate_of_refuses
  refine Elf.eq_error_iff refused fun sound => ?_
  obtain ⟨a, chosen, aligned⟩ := chooses_of_not_refuses sound
  exact ⟨a, locate_of_chooses chosen aligned⟩

theorem locate_eq_ok : locate entry symbols start symbol = .ok a ↔
    4 ∣ a.toNat ∧ Chooses entry symbols start symbol a := by
  constructor
  · intro found
    have sound : ∀ e, ¬Refuses entry symbols start symbol e := by
      intro e refused
      cases found.symm.trans (locate_of_refuses refused)
    obtain ⟨b, chosen, aligned⟩ := chooses_of_not_refuses sound
    cases found.symm.trans (locate_of_chooses chosen aligned)
    exact ⟨aligned, chosen⟩
  · rintro ⟨aligned, chosen⟩
    exact locate_of_chooses chosen aligned

end Start

/-! ### Records of a file -/

namespace Elf

theorem Symbol.Listing.exists_denotes {names : ByteArray} {records : List Symbol.Record}
    {symbols : List Symbol} (listing : Symbol.Listing names records symbols) :
    ∀ y ∈ symbols, ∃ r ∈ records, r.Denotes names y := by
  induction listing with
  | nil => exact nofun
  | @listed r y records symbols denotes rest ih =>
    refine List.forall_mem_cons.2 ⟨⟨r, List.mem_cons_self, denotes⟩, fun z hz => ?_⟩
    obtain ⟨s, hs, found⟩ := ih z hz
    exact ⟨s, List.mem_cons_of_mem r hs, found⟩
  | skipped other rest ih =>
    intro z hz
    obtain ⟨s, hs, found⟩ := ih z hz
    exact ⟨s, List.mem_cons_of_mem _ hs, found⟩

theorem exists_of_mem_forall₂ {α β : Type} {R : α → β → Prop} {l : List α} {m : List β}
    (h : List.Forall₂ R l m) : ∀ b ∈ m, ∃ a ∈ l, R a b := by
  induction h with
  | nil => exact nofun
  | @cons a b l m here rest ih =>
    refine List.forall_mem_cons.2 ⟨⟨a, List.mem_cons_self, here⟩, fun c hc => ?_⟩
    obtain ⟨d, hd, found⟩ := ih c hc
    exact ⟨d, List.mem_cons_of_mem a hd, found⟩

/-- The record stands in a symbol table of the file and stands for the symbol, its name being in the
section the table is linked to. -/
def Symbol.StatedBy (data : ByteArray) (y : Symbol) (r : Symbol.Record) : Prop :=
  ∃ (h : Header) (sections : List Section) (t n : Section) (k : Nat), h.StandsAt data ∧
    List.Forall₂ (fun i s => s.StandsAt data (h.sectionOffset + i * h.sectionStride))
      (List.range h.sectionCount) sections ∧
    t ∈ sections ∧ t.IsSymbolTable ∧ sections[t.link]? = some n ∧ k < t.size / 16 ∧
    r.StandsAt data (t.offset + k * 16) ∧ r.Denotes (n.contents data) y

variable {data : ByteArray} {f : File} {y : Symbol}

theorem exists_statedBy (read : File.ofBytes data = .ok f) (hy : y ∈ f.symbols) :
    ∃ r, y.StatedBy data r := by
  obtain ⟨h, sound, stands, -⟩ := File.sound_of_ofBytes read
  rw [File.ofBytes_of_standsAt sound stands] at read
  obtain ⟨segments, -, read⟩ := bind_eq_ok.1 read
  obtain ⟨sections, hsections, read⟩ := bind_eq_ok.1 read
  obtain ⟨symbols, hsymbols, read⟩ := bind_eq_ok.1 read
  cases read
  have headers := (mapM_eq_ok.1 hsections).imp fun _ _ => Section.standsAt_of_read
  obtain ⟨tables, lists, rfl⟩ := definedSymbols_eq_ok hsymbols
  obtain ⟨listed, hlisted, hy⟩ := List.mem_flatten.1 hy
  obtain ⟨t, ht, n, records, linked, -, -, all, listing⟩ := exists_of_mem_forall₂ lists _ hlisted
  obtain ⟨ht, isTable⟩ := List.mem_filter.1 ht
  obtain ⟨r, hr, denotes⟩ := listing.exists_denotes y hy
  obtain ⟨k, hk, standsAt⟩ := exists_of_mem_forall₂ all r hr
  exact ⟨r, h, sections, t, n, k, stands, headers, ht, of_decide_eq_true isTable, linked,
    List.mem_range.1 hk, standsAt, denotes⟩

/-- A function that is not in Thumb code is where its record says, and its address is even. -/
theorem Symbol.StatedBy.value_eq {r : Symbol.Record} (stated : y.StatedBy data r)
    (function : y.kind = .function) (arm : y.thumb = false) :
    r.value = y.address ∧ y.address.toNat % 2 = 0 := by
  obtain ⟨_, _, _, _, _, _, _, _, _, _, _, _, denotes⟩ := stated
  have address := denotes.address
  rw [arm] at address
  have even : ¬r.value.toNat % 2 = 1 := by
    intro odd
    have thumb := denotes.thumb.2 ⟨function, odd⟩
    rw [arm] at thumb
    cases thumb
  refine ⟨BitVec.eq_of_toNat_eq address.symm, ?_⟩
  rw [address]
  exact Nat.mod_two_ne_one.1 even

end Elf

namespace Start

/-- The start is the multiple of four that is chosen, and an error says what is against it. A given
start is all that counts where there is one. In a file that is read, a function that is started at by
its name has the address its record states, and that is even. -/
theorem locate_iff (entry : Addr) (symbols : List Elf.Symbol) (start : Option Addr)
    (symbol : Option String) :
    (∀ a, locate entry symbols start symbol = .ok a ↔
      4 ∣ a.toNat ∧ Chooses entry symbols start symbol a) ∧
    (∀ e, locate entry symbols start symbol = .error e ↔ Refuses entry symbols start symbol e) ∧
    (∀ a entry' symbols' symbol',
      locate entry' symbols' (some a) symbol' = locate entry symbols (some a) symbol) ∧
    ∀ data f name a, Elf.File.ofBytes data = .ok f →
      locate f.entry f.symbols none (some name) = .ok a →
      ∃ y, First name f.symbols y ∧ y.address = a ∧ (y.kind = .function →
        ∃ r, y.StatedBy data r ∧ r.value = a ∧ a.toNat % 2 = 0) := by
  refine ⟨fun a => locate_eq_ok, fun e => locate_eq_error, fun a _ _ _ => rfl, ?_⟩
  intro data f name a read found
  obtain ⟨-, chosen⟩ := locate_eq_ok.1 found
  cases chosen with
  | @named _ y first arm =>
    refine ⟨y, first, rfl, fun function => ?_⟩
    obtain ⟨r, stated⟩ := Elf.exists_statedBy read first.mem
    exact ⟨r, stated, stated.value_eq function arm⟩

/-- A function of a file is started at where its record says. A Thumb symbol is refused though a
later one of its name could be started at, and a given start is refused for nothing but its
alignment. -/
theorem locate_iff_sample : ∃ f, Elf.File.ofBytes Elf.Executable.sample.encode = .ok f ∧
    locate f.entry f.symbols none (some "helper") = .ok 0x8010 ∧
    (∃ y, First "helper" f.symbols y ∧ y.kind = .function ∧
      ∃ r, y.StatedBy Elf.Executable.sample.encode r ∧ r.value = 0x8010) ∧
    Refuses 0x8000 [⟨"f", 0x8100, 4, .function, true⟩, ⟨"f", 0x8010, 4, .function, false⟩]
      none (some "f") (.thumbSymbol "f") ∧
    Refuses 0x8001 [] (some 0x8002) (some "f") (.unaligned 0x8002) := by
  have read := Elf.Executable.ofBytes_encode_sample.2
  refine ⟨_, read, rfl, ?_, ((locate_iff _ _ _ _).2.1 _).1 rfl, ((locate_iff _ _ _ _).2.1 _).1 rfl⟩
  obtain ⟨-, -, -, stated⟩ := locate_iff 0x8000 [] none none
  obtain ⟨y, first, -, told⟩ := stated _ _ "helper" 0x8010 read rfl
  have function : y.kind = .function := by
    cases first.find?
    rfl
  obtain ⟨r, statedBy, value, -⟩ := told function
  exact ⟨y, first, function, r, statedBy, value⟩

end Start

end Disarm
