import Disarm.SymbolTable
import Mathlib.Data.BitVec
import Mathlib.Data.Finset.Card
import Mathlib.Order.Bounds.Defs
/-!
Tables of symbols by what was inserted. A table is known by the symbol it has at each address, and that
is the last one inserted there. Main statement: after any changes all that is asked of a table is
answered from the last insertions.
-/

namespace Disarm

/-! ### Lists in order -/

theorem find?_eq_some_of_ordered {α : Type} {r : α → α → Prop} {p : α → Bool} {l : List α} {x : α}
    (asymm : ∀ a b, r a b → ¬r b a) (ordered : l.Pairwise r) :
    l.find? p = some x ↔ x ∈ l ∧ p x ∧ ∀ y ∈ l, p y → y = x ∨ r x y := by
  induction l with
  | nil => simp
  | cons z l ih =>
    obtain ⟨hz, ordered⟩ := List.pairwise_cons.1 ordered
    by_cases fits : p z
    · rw [List.find?_cons_of_pos fits, Option.some.injEq]
      constructor
      · rintro rfl
        refine ⟨List.mem_cons_self, fits, fun y hy _ => ?_⟩
        exact (List.mem_cons.1 hy).imp_right (hz y)
      · rintro ⟨hx, -, first⟩
        rcases first z List.mem_cons_self fits with same | before
        · exact same
        · rcases List.mem_cons.1 hx with same | later
          · exact same.symm
          · exact absurd before (asymm z x (hz x later))
    · rw [List.find?_cons_of_neg fits, ih ordered]
      constructor
      · rintro ⟨hx, px, first⟩
        refine ⟨List.mem_cons_of_mem z hx, px, fun y hy py => ?_⟩
        rcases List.mem_cons.1 hy with rfl | hy
        · exact absurd py fits
        · exact first y hy py
      · rintro ⟨hx, px, first⟩
        rcases List.mem_cons.1 hx with rfl | hx
        · exact absurd px fits
        · exact ⟨hx, px, fun y hy => first y (List.mem_cons_of_mem z hy)⟩

theorem Symbol.mem_place {s t : Symbol} {l : List Symbol} (h : l.Pairwise (·.start < ·.start)) :
    t ∈ place s l ↔ t = s ∨ t ∈ l ∧ t.start ≠ s.start := by
  induction l with
  | nil => simp [place]
  | cons u l ih =>
    obtain ⟨hu, h⟩ := List.pairwise_cons.1 h
    rw [place]
    split
    · next lt =>
      have apart : t ∈ u :: l → t.start ≠ s.start := by
        intro ht same
        rcases List.mem_cons.1 ht with rfl | ht
        · exact BitVec.lt_irrefl _ (same ▸ lt)
        · exact BitVec.lt_asymm lt (same ▸ hu t ht)
      rw [List.mem_cons]
      exact or_congr_right ⟨fun ht => ⟨ht, apart ht⟩, And.left⟩
    · split
      -- What stood at the address gives way; all that follows stands higher.
      · next same =>
        have apart : t ∈ l → t.start ≠ s.start := fun ht e =>
          BitVec.lt_irrefl _ (same ▸ e ▸ hu t ht)
        rw [List.mem_cons, List.mem_cons]
        refine or_congr_right ⟨fun ht => ⟨.inr ht, apart ht⟩, ?_⟩
        rintro ⟨rfl | ht, ne⟩
        · exact absurd same.symm ne
        · exact ht
      · next ne =>
        rw [List.mem_cons, ih h, List.mem_cons]
        constructor
        · rintro (rfl | rfl | ⟨ht, hne⟩)
          · exact .inr ⟨.inl rfl, Ne.symm ne⟩
          · exact .inl rfl
          · exact .inr ⟨.inr ht, hne⟩
        · rintro (rfl | ⟨rfl | ht, hne⟩)
          · exact .inr (.inl rfl)
          · exact .inl rfl
          · exact .inr (.inr ⟨ht, hne⟩)

/-- A symbol with a size ends before an address if its end, which may pass the top of the address
space, is not above it. -/
theorem Symbol.not_covers_iff {s : Symbol} {a : Addr} (le : s.start ≤ a) :
    ¬s.Covers a ↔ s.size ≠ 0 ∧ s.start.toNat + s.size.toNat ≤ a.toNat := by
  have low : s.start.toNat ≤ a.toNat := BitVec.le_def.1 le
  have far : s.size ≤ a - s.start ↔ s.start.toNat + s.size.toNat ≤ a.toNat := by
    rw [BitVec.le_def, BitVec.toNat_sub_of_le le]
    omega
  rw [Covers, and_iff_right le, not_or, BitVec.not_lt, far]

namespace SymbolTable

variable {t : SymbolTable} {s : Symbol} {a : Addr}

/-! ### The symbol at an address -/

def at? (t : SymbolTable) (a : Addr) : Option Symbol := t.toList.find? (·.start = a)

theorem get?_eq (t : SymbolTable) (a : Addr) : t.get? a = (t.at? a).map Symbol.name := rfl

theorem nodup_starts (t : SymbolTable) : (t.toList.map Symbol.start).Nodup :=
  List.pairwise_map.2 (t.ascending.imp fun lt => BitVec.ne_of_lt lt)

theorem at?_eq_some : t.at? a = some s ↔ s ∈ t.toList ∧ s.start = a := by
  unfold at?
  rw [find?_eq_some_of_ordered (fun _ _ => BitVec.lt_asymm) t.ascending, decide_eq_true_iff]
  constructor
  · exact fun ⟨mem, here, _⟩ => ⟨mem, here⟩
  · rintro ⟨mem, rfl⟩
    refine ⟨mem, rfl, fun u hu same => .inl ?_⟩
    exact List.inj_on_of_nodup_map t.nodup_starts hu mem (of_decide_eq_true same)

theorem mem_iff_at? : s ∈ t.toList ↔ t.at? s.start = some s := by
  rw [at?_eq_some, and_iff_left rfl]

theorem at?_insert (t : SymbolTable) (s : Symbol) (a : Addr) :
    (t.insert s).at? a = if s.start = a then some s else t.at? a := by
  ext u
  rw [at?_eq_some, insert, Symbol.mem_place t.ascending]
  split
  · next here =>
    rw [Option.some.injEq]
    constructor
    · rintro ⟨rfl | ⟨-, ne⟩, rfl⟩
      · rfl
      · exact absurd here.symm ne
    · rintro rfl
      exact ⟨.inl rfl, here⟩
  · next away =>
    rw [at?_eq_some]
    constructor
    · rintro ⟨rfl | ⟨mem, -⟩, rfl⟩
      · exact absurd rfl away
      · exact ⟨mem, rfl⟩
    · rintro ⟨mem, rfl⟩
      exact ⟨.inr ⟨mem, Ne.symm away⟩, rfl⟩

theorem ext_at? {t u : SymbolTable} (h : ∀ a, t.at? a = u.at? a) : t = u := by
  have mem (s : Symbol) : s ∈ t.toList ↔ s ∈ u.toList := by
    rw [mem_iff_at?, mem_iff_at?, h]
  have perm : t.toList.Perm u.toList :=
    (List.perm_ext_iff_of_nodup t.nodup_starts.of_map u.nodup_starts.of_map).2 mem
  have same : t.toList = u.toList :=
    perm.eq_of_pairwise (fun _ _ _ _ lt gt => absurd gt (BitVec.lt_asymm lt)) t.ascending u.ascending
  cases t
  cases u
  cases same
  rfl

theorem insert_comm (t : SymbolTable) {s u : Symbol} (apart : s.start ≠ u.start) :
    (t.insert s).insert u = (t.insert u).insert s := by
  refine ext_at? fun a => ?_
  rw [at?_insert, at?_insert, at?_insert, at?_insert]
  by_cases hu : u.start = a
  · rw [if_pos hu, if_pos hu, if_neg fun hs => apart (hs.trans hu.symm)]
  · rw [if_neg hu, if_neg hu]

/-! ### What is asked of a table -/

theorem isSome_at? : (t.at? a).isSome ↔ a ∈ t.toList.map Symbol.start := by
  rw [Option.isSome_iff_exists, List.mem_map]
  exact exists_congr fun s => at?_eq_some

theorem find?_eq_some {name : String} :
    t.find? name = some a ↔ IsLeast {b | (t.at? b).map Symbol.name = some name} a := by
  have named (b : Addr) : (t.at? b).map Symbol.name = some name ↔
      ∃ s ∈ t.toList, s.start = b ∧ s.name = name := by
    rw [Option.map_eq_some_iff]
    exact exists_congr fun s => by rw [at?_eq_some, and_assoc]
  unfold find?
  rw [Option.map_eq_some_iff]
  simp only [find?_eq_some_of_ordered (fun _ _ => BitVec.lt_asymm) t.ascending, decide_eq_true_iff]
  constructor
  · rintro ⟨s, ⟨mem, hname, first⟩, rfl⟩
    refine ⟨(named s.start).2 ⟨s, mem, rfl, hname⟩, fun b hb => ?_⟩
    obtain ⟨u, hu, rfl, same⟩ := (named b).1 hb
    rcases first u hu same with rfl | lt
    · exact BitVec.le_refl _
    · exact BitVec.le_of_lt lt
  · rintro ⟨ha, least⟩
    obtain ⟨s, mem, rfl, hname⟩ := (named a).1 ha
    refine ⟨s, ⟨mem, hname, fun u hu same => ?_⟩, rfl⟩
    have le : s.start ≤ u.start := least ((named u.start).2 ⟨u, hu, rfl, same⟩)
    by_cases e : s.start = u.start
    · exact .inl (List.inj_on_of_nodup_map t.nodup_starts hu mem e.symm)
    · exact .inr (BitVec.lt_of_le_ne le e)

/-- The nearest symbol is the first at or below the address in descending order. -/
theorem nearest?_eq_some : t.nearest? a = some s ↔
    t.at? s.start = some s ∧ IsGreatest {b | b ∈ t.toList.map Symbol.start ∧ b ≤ a} s.start := by
  have descending : t.toList.reverse.Pairwise fun x y => y.start < x.start :=
    List.pairwise_reverse.2 t.ascending
  unfold nearest?
  rw [List.getLast?_filter, find?_eq_some_of_ordered (fun _ _ => BitVec.lt_asymm) descending,
    decide_eq_true_iff, List.mem_reverse, ← mem_iff_at?]
  constructor
  · rintro ⟨mem, le, first⟩
    refine ⟨mem, ⟨List.mem_map_of_mem mem, le⟩, ?_⟩
    rintro b ⟨hb, below⟩
    obtain ⟨u, hu, rfl⟩ := List.mem_map.1 hb
    rcases first u (List.mem_reverse.2 hu) (decide_eq_true below) with rfl | lt
    · exact BitVec.le_refl _
    · exact BitVec.le_of_lt lt
  · rintro ⟨mem, ⟨-, le⟩, greatest⟩
    refine ⟨mem, le, fun u hu below => ?_⟩
    have hu := List.mem_reverse.1 hu
    have le : u.start ≤ s.start := greatest ⟨List.mem_map_of_mem hu, of_decide_eq_true below⟩
    by_cases e : u.start = s.start
    · exact .inl (List.inj_on_of_nodup_map t.nodup_starts hu mem e)
    · exact .inr (BitVec.lt_of_le_ne le e)

theorem nearest?_eq_none : t.nearest? a = none ↔ ∀ b ∈ t.toList.map Symbol.start, ¬b ≤ a := by
  unfold nearest?
  simp

theorem size_eq (t : SymbolTable) : t.size = (t.toList.map Symbol.start).toFinset.card := by
  rw [List.toFinset_card_of_nodup t.nodup_starts, List.length_map]
  rfl

theorem owner?_of_nearest (h : t.nearest? a = some s) :
    t.owner? a = if s.size ≠ 0 ∧ s.start.toNat + s.size.toNat ≤ a.toNat then none
      else some (s.name, a - s.start) := by
  obtain ⟨-, ⟨-, le⟩, -⟩ := nearest?_eq_some.1 h
  rw [owner?, h]
  by_cases covers : s.Covers a
  · rw [if_neg fun past => (Symbol.not_covers_iff le).2 past covers]
    exact if_pos covers
  · rw [if_pos ((Symbol.not_covers_iff le).1 covers)]
    exact if_neg covers

theorem owner?_eq_some {name : String} {offset : Word} (h : t.owner? a = some (name, offset)) :
    ∃ s, t.nearest? a = some s ∧ s.name = name ∧ offset ≤ a ∧ a - offset = s.start := by
  cases nearest : t.nearest? a with
  | none =>
    rw [owner?, nearest] at h
    cases h
  | some s =>
    obtain ⟨-, ⟨-, le⟩, -⟩ := nearest?_eq_some.1 nearest
    rw [owner?_of_nearest nearest] at h
    split at h
    · cases h
    · cases h
      refine ⟨s, rfl, rfl, ?_, ?_⟩
      · rw [BitVec.le_def, BitVec.toNat_sub_of_le le]
        exact Nat.sub_le _ _
      · rw [sub_sub_cancel]

/-! ### Changes -/

/-- A change to a table. Collecting puts the table of a list of named addresses in its place; a size
of zero stands for none. -/
inductive Change where
  | insert (a : Addr) (name : String)
  | insertSized (a : Addr) (size : Word) (name : String)
  | collect (l : List (Addr × String))

namespace Change

def apply (t : SymbolTable) : Change → SymbolTable
  | insert a name => t.insert ⟨a, 0, name⟩
  | insertSized a size name => t.insert ⟨a, size, name⟩
  | collect l => ofList (l.map fun p => ⟨p.1, 0, p.2⟩)

def record (l : List Symbol) : Change → List Symbol
  | insert a name => l ++ [⟨a, 0, name⟩]
  | insertSized a size name => l ++ [⟨a, size, name⟩]
  | collect m => m.map fun p => ⟨p.1, 0, p.2⟩

end Change

def replay (l : List Change) : SymbolTable := l.foldl Change.apply ∅

/-- The insertions that count after changes: all since the table last gave way. -/
def insertions (l : List Change) : List Symbol := l.foldl Change.record []

def lastAt (l : List Symbol) (a : Addr) : Option Symbol := l.reverse.find? (·.start = a)

theorem ofList_concat (l : List Symbol) (s : Symbol) : ofList (l ++ [s]) = (ofList l).insert s := by
  rw [ofList, List.foldl_append]
  rfl

theorem lastAt_concat (l : List Symbol) (s : Symbol) (a : Addr) :
    lastAt (l ++ [s]) a = if s.start = a then some s else lastAt l a := by
  unfold lastAt
  rw [List.reverse_concat, List.find?_cons]
  by_cases h : s.start = a <;> simp [h]

theorem at?_ofList (l : List Symbol) (a : Addr) : (ofList l).at? a = lastAt l a := by
  induction l using List.reverseRecOn with
  | nil => rfl
  | append_singleton l s ih => rw [ofList_concat, at?_insert, lastAt_concat, ih]

theorem mem_starts_ofList (l : List Symbol) (a : Addr) :
    a ∈ (ofList l).toList.map Symbol.start ↔ a ∈ l.map Symbol.start := by
  rw [← isSome_at?, at?_ofList, lastAt, List.find?_isSome, List.mem_map]
  simp

/-- A change makes of the table of some insertions the table of those that count after it. -/
theorem apply_ofList (c : Change) (l : List Symbol) : c.apply (ofList l) = ofList (c.record l) := by
  cases c with
  | insert a name => exact (ofList_concat l _).symm
  | insertSized a size name => exact (ofList_concat l _).symm
  | collect m => rfl

theorem replay_eq_ofList (l : List Change) : replay l = ofList (insertions l) := by
  induction l using List.reverseRecOn with
  | nil => rfl
  | append_singleton l c ih =>
    rw [replay, List.foldl_concat, insertions, List.foldl_concat, ← apply_ofList]
    exact congrArg c.apply ih

/-- After any changes a table answers from the last insertion at each address. -/
theorem replay_answers (l : List Change) :
    (∀ a, (replay l).get? a = (lastAt (insertions l) a).map Symbol.name) ∧
    (replay l).size = ((insertions l).map Symbol.start).toFinset.card ∧
    (∀ name a, (replay l).find? name = some a ↔
      IsLeast {b | (lastAt (insertions l) b).map Symbol.name = some name} a) ∧
    (∀ a,
      (∃ s, IsGreatest {b | b ∈ (insertions l).map Symbol.start ∧ b ≤ a} s.start ∧
        lastAt (insertions l) s.start = some s ∧
        (replay l).owner? a =
          if s.size ≠ 0 ∧ s.start.toNat + s.size.toNat ≤ a.toNat then none
          else some (s.name, a - s.start)) ∨
      (∀ b ∈ (insertions l).map Symbol.start, ¬b ≤ a) ∧ (replay l).owner? a = none) ∧
    (∀ s u : Symbol, s.start ≠ u.start →
      ((replay l).insert s).insert u = ((replay l).insert u).insert s) ∧
    (∀ a name offset, (replay l).owner? a = some (name, offset) →
      offset ≤ a ∧ (replay l).get? (a - offset) = some name ∧
      ∀ b, a - offset < b → b ≤ a → (replay l).get? b = none) := by
  have here (a : Addr) : (replay l).at? a = lastAt (insertions l) a := by
    rw [replay_eq_ofList, at?_ofList]
  have starts (a : Addr) :
      a ∈ (replay l).toList.map Symbol.start ↔ a ∈ (insertions l).map Symbol.start := by
    rw [replay_eq_ofList, mem_starts_ofList]
  refine ⟨?_, ?_, ?_, ?_, ?_, ?_⟩
  · intro a
    rw [get?_eq, here]
  · rw [size_eq]
    congr 1
    ext a
    rw [List.mem_toFinset, List.mem_toFinset, starts]
  · intro name a
    simp only [find?_eq_some, here]
  · intro a
    simp only [← here, ← starts]
    cases nearest : (replay l).nearest? a with
    | none =>
      refine .inr ⟨nearest?_eq_none.1 nearest, ?_⟩
      rw [owner?, nearest]
    | some s =>
      obtain ⟨at_start, greatest⟩ := nearest?_eq_some.1 nearest
      exact .inl ⟨s, greatest, at_start, owner?_of_nearest nearest⟩
  · intro s u apart
    exact insert_comm _ apart
  · intro a name offset h
    obtain ⟨s, nearest, rfl, le, start⟩ := owner?_eq_some h
    obtain ⟨at_start, -, greatest⟩ := nearest?_eq_some.1 nearest
    refine ⟨le, ?_, fun b above below => ?_⟩
    · rw [start, get?_eq, at_start]
      rfl
    -- A symbol that starts further up would be nearer.
    · rw [get?_eq, Option.map_eq_none_iff, ← Option.not_isSome_iff_eq_none, isSome_at?]
      intro hb
      exact absurd (start ▸ above) (BitVec.not_lt.2 (greatest ⟨hb, below⟩))

/-- A name that gave way to another with a size, and a symbol that ends past the top. -/
def topHistory : List Change :=
  [.insert 0x2000 "lost", .collect [(0x1000, "old")], .insertSized 0x1000 0x10 "start",
    .insertSized 0xfffffff0 0x20 "top"]

theorem replay_answers_past_top :
    (replay topHistory).get? 0x1000 = some "start" ∧ (replay topHistory).size = 2 ∧
    (replay topHistory).find? "top" = some 0xfffffff0 ∧
    (replay topHistory).owner? 0x1010 = none ∧
    (replay topHistory).owner? 0xffffffff = some ("top", 0xf) ∧
    (∀ b, 0xfffffff0 < b → b ≤ 0xffffffff → (replay topHistory).get? b = none) ∧
    ((replay topHistory).insert ⟨0x1000, 0, "a"⟩).insert ⟨0x1004, 0, "b"⟩ =
      ((replay topHistory).insert ⟨0x1004, 0, "b"⟩).insert ⟨0x1000, 0, "a"⟩ := by
  obtain ⟨names, size, -, -, comm, owner⟩ := replay_answers topHistory
  have top : (replay topHistory).owner? 0xffffffff = some ("top", 0xf) := by decide +kernel
  obtain ⟨-, -, apart⟩ := owner _ _ _ top
  refine ⟨?_, ?_, by decide +kernel, by decide +kernel, top, apart, comm _ _ (by decide)⟩
  · rw [names]
    decide +kernel
  · rw [size]
    decide +kernel

end SymbolTable

end Disarm
