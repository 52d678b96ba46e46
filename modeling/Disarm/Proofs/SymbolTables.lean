import Disarm.Proofs.Flaws
import Disarm.Proofs.RoundTrip
import Mathlib.Data.Nat.Bitwise
/-!
Symbol tables. What a record stands for is told from its numbers and the bytes of its name, and a
table lists what its whole records stand for, in order. Main statement: a table comes to nothing for
its link, for the end of the file or for the name of a defined symbol, and otherwise to its list.
-/

namespace Disarm

namespace Bytes

variable {b : ByteArray} {i j : Nat}

theorem le_zeroFrom (h : i ≤ b.size) : i ≤ zeroFrom b i := by
  fun_induction zeroFrom b i with
  | case1 i inside zero => exact Nat.le_refl i
  | case2 i inside nonzero ih =>
    have next := ih inside
    omega
  | case3 i beyond => exact h

theorem toList_extract : (b.extract i j).data.toList = (b.data.toList.drop i).take (j - i) := by
  rw [ByteArray.data_extract, Array.toList_extract, List.extract_eq_take_drop]

theorem toList_extract_zeroFrom (b : ByteArray) (i : Nat) :
    (b.extract i (zeroFrom b i)).data.toList =
      (b.data.toList.drop i).takeWhile fun x => x ≠ 0 := by
  rw [toList_extract]
  fun_induction zeroFrom b i with
  | case1 i inside zero =>
    have first : b.data.toList.drop i = b[i] :: b.data.toList.drop (i + 1) :=
      List.drop_eq_getElem_cons inside
    rw [first, zero, Nat.sub_self]
    rfl
  | case2 i inside nonzero ih =>
    have first : b.data.toList.drop i = b[i] :: b.data.toList.drop (i + 1) :=
      List.drop_eq_getElem_cons inside
    have next : i + 1 ≤ zeroFrom b (i + 1) := le_zeroFrom inside
    have count : zeroFrom b (i + 1) - i = zeroFrom b (i + 1) - (i + 1) + 1 := by omega
    rw [first, count, List.take_succ_cons, ih, List.takeWhile_cons_of_pos (by simpa using nonzero)]
  | case3 i beyond =>
    rw [List.drop_eq_nil_of_le (Nat.le_of_not_lt beyond), List.take_nil, List.takeWhile_nil]

end Bytes

theorem fromUTF8?_eq_some {b : ByteArray} {s : String} :
    String.fromUTF8? b = some s ↔ s.toUTF8 = b := by
  constructor
  · intro h
    unfold String.fromUTF8? at h
    split at h
    · cases h
      rfl
    · cases h
  · rintro rfl
    exact fromUTF8?_toUTF8 s

namespace Elf

namespace Symbol

/-! ### Names -/

theorem nameAt_of_beyond {names : ByteArray} {i : Nat} (beyond : names.size < i) :
    nameAt names i = .error (.outOfBounds .symbolName) := if_neg (Nat.not_le.2 beyond)

theorem exists_nameAt {names : ByteArray} {i : Nat} (inside : i ≤ names.size) :
    ∃ name, nameAt names i = .ok name ∧ ∀ other, other ≠ "" →
      (other = name ↔ other.toUTF8.data.toList =
        (names.data.toList.drop i).takeWhile fun x => x ≠ 0) := by
  refine ⟨_, if_pos inside, fun other nonempty => ?_⟩
  rw [← Bytes.toList_extract_zeroFrom, Array.toList_inj, ← ByteArray.ext_iff, ← fromUTF8?_eq_some]
  cases String.fromUTF8? (names.extract i (Bytes.zeroFrom names i)) with
  | none => exact ⟨fun h => absurd h nonempty, nofun⟩
  | some name => rw [Option.getD_some, Option.some.injEq, eq_comm]

/-! ### Records -/

/-- The numbers of a symbol record. The kind is in the low half of `info`, and `place` is zero if
the symbol is not defined. -/
structure Record where
  nameOffset : Nat
  value : Word
  size : Word
  info : UInt8
  place : Nat

namespace Record

variable {data table names : ByteArray} {i : Nat} {r : Record} {y : Symbol} {e : Error}

/-- All of a record lies in the bytes, each number at its offset. -/
structure StandsAt (table : ByteArray) (i : Nat) (r : Record) : Prop where
  room : i + 16 ≤ table.size
  nameOffset : (Bytes.word? table i).map (·.toNat) = some r.nameOffset
  value : Bytes.word? table (i + 4) = some r.value
  size : Bytes.word? table (i + 8) = some r.size
  info : Bytes.byte? table (i + 12) = some r.info
  place : (Bytes.half? table (i + 14)).map (·.toNat) = some r.place

def Defined (r : Record) : Prop := (r.info &&& 0xf = 1 ∨ r.info &&& 0xf = 2) ∧ r.place ≠ 0

/-- A defined record whose name is proper text stands for a symbol. The lowest bit of a function's
value is a mark and not part of its address. -/
structure Denotes (names : ByteArray) (r : Record) (y : Symbol) : Prop where
  defined : r.Defined
  name : y.name.toUTF8.data.toList =
    (names.data.toList.drop r.nameOffset).takeWhile fun x => x ≠ 0
  nonempty : y.name ≠ ""
  plain : y.name.toList.head? ≠ some '$'
  size : y.size = r.size
  kind : y.kind = .function ↔ r.info &&& 0xf = 2
  thumb : y.thumb = true ↔ y.kind = .function ∧ r.value.toNat % 2 = 1
  address : y.address.toNat = if y.thumb then r.value.toNat - 1 else r.value.toNat

theorem exists_standsAt (room : i + 16 ≤ table.size) : ∃ r : Record, r.StandsAt table i := by
  obtain ⟨nameOffset, h₁⟩ := exists_size? table i (by omega)
  obtain ⟨value, h₂⟩ := exists_word? table (i + 4) (by omega)
  obtain ⟨size, h₃⟩ := exists_word? table (i + 8) (by omega)
  have info : Bytes.byte? table (i + 12) = some table[i + 12] := Bytes.byte?_of_lt (by omega)
  obtain ⟨place, h₄⟩ := exists_count? table (i + 14) (by omega)
  exact ⟨⟨nameOffset, value, size, table[i + 12], place⟩, room, h₁, h₂, h₃, info, h₄⟩

theorem standsAt_of_placed {k : Nat} (h : Bytes.Placed data k table) (room : i + 16 ≤ table.size) :
    r.StandsAt data (k + i) ↔ r.StandsAt table i := by
  have fits := h.fits
  have byte : Bytes.byte? data (k + i + 12) = Bytes.byte? table (i + 12) := by
    rw [Nat.add_assoc]
    exact h.byte (i + 12) (by omega)
  have half : Bytes.half? data (k + i + 14) = Bytes.half? table (i + 14) := by
    rw [Nat.add_assoc]
    exact h.half?_eq (by omega)
  have word (n : Nat) (hn : n ≤ 8) : Bytes.word? data (k + i + n) = Bytes.word? table (i + n) := by
    rw [Nat.add_assoc]
    exact h.word?_eq (by omega)
  have first := word 0 (by decide)
  have value := word 4 (by decide)
  have size := word 8 (by decide)
  constructor
  · rintro ⟨-, h₁, h₂, h₃, h₄, h₅⟩
    exact ⟨room, first ▸ h₁, value ▸ h₂, size ▸ h₃, byte ▸ h₄, half ▸ h₅⟩
  · rintro ⟨-, h₁, h₂, h₃, h₄, h₅⟩
    exact ⟨by omega, first.symm ▸ h₁, value.symm ▸ h₂, size.symm ▸ h₃, byte.symm ▸ h₄,
      half.symm ▸ h₅⟩

end Record

/-! ### Symbols -/

theorem kindOf_eq_none {info : UInt8} :
    kindOf info = none ↔ ¬(info &&& 0xf = 1 ∨ info &&& 0xf = 2) := by
  unfold kindOf
  by_cases function : info &&& 0xf = 2
  · simp [function]
  · by_cases object : info &&& 0xf = 1 <;> simp [function, object]

theorem kindOf_eq_some {info : UInt8} {kind : SymbolKind} (h : kindOf info = some kind) :
    kind = .function ↔ info &&& 0xf = 2 := by
  unfold kindOf at h
  by_cases function : info &&& 0xf = 2
  · rw [if_pos function, Option.some.injEq] at h
    simp [← h, function]
  · rw [if_neg function] at h
    by_cases object : info &&& 0xf = 1
    · rw [if_pos object, Option.some.injEq] at h
      simp [← h, function]
    · rw [if_neg object] at h
      cases h

theorem toNat_and_not_one {v : Word} (odd : v.toNat % 2 = 1) :
    (v &&& ~~~1).toNat = v.toNat - 1 := by
  have low : v &&& 1 = 1 := by
    apply BitVec.eq_of_toNat_eq
    rw [BitVec.toNat_and]
    exact (Nat.and_one_is_mod v.toNat).trans odd
  have flipped (w : Word) : v &&& ~~~w = v ^^^ (v &&& w) := by
    ext k hk
    cases h : v[k] <;> simp [h]
  rw [flipped, low, BitVec.toNat_xor]
  exact Nat.xor_one_of_odd (Nat.odd_iff.2 odd)

theorem thumb_make {name : String} {value size : Word} {kind : SymbolKind} :
    (make name value size kind).thumb = true ↔ kind = .function ∧ value.toNat % 2 = 1 := by
  rw [← Declaration.odd_iff]
  exact decide_eq_true_iff

theorem address_make {name : String} {value size : Word} {kind : SymbolKind} :
    (make name value size kind).address.toNat =
      if (make name value size kind).thumb then value.toNat - 1 else value.toNat := by
  have mark : (kind = .function ∧ value.bit 0 = true) ↔
      (make name value size kind).thumb = true := by
    rw [thumb_make, Declaration.odd_iff]
  by_cases thumb : (make name value size kind).thumb = true
  · rw [if_pos thumb, ← toNat_and_not_one (thumb_make.1 thumb).2]
    exact congrArg BitVec.toNat (if_pos (mark.2 thumb))
  · rw [if_neg thumb]
    exact congrArg BitVec.toNat (if_neg (mark.not.2 thumb))

theorem eq_make_iff {y : Symbol} {name : String} {value size : Word} {kind : SymbolKind} :
    y = make name value size kind ↔ y.name = name ∧ y.size = size ∧ y.kind = kind ∧
      (y.thumb = true ↔ kind = .function ∧ value.toNat % 2 = 1) ∧
      y.address.toNat = if y.thumb then value.toNat - 1 else value.toNat := by
  constructor
  · rintro rfl
    exact ⟨rfl, rfl, rfl, thumb_make, address_make⟩
  · rintro ⟨name_eq, size_eq, kind_eq, thumb, address⟩
    have thumb_eq : y.thumb = (make name value size kind).thumb := by
      rw [Bool.eq_iff_iff, thumb, thumb_make]
    have address_eq : y.address = (make name value size kind).address := by
      apply BitVec.eq_of_toNat_eq
      rw [address, address_make, thumb_eq]
    calc
      y = ⟨y.name, y.address, y.size, y.kind, y.thumb⟩ := rfl
      _ = ⟨name, (make name value size kind).address, size, kind,
          (make name value size kind).thumb⟩ := by
        rw [name_eq, address_eq, size_eq, kind_eq, thumb_eq]
      _ = make name value size kind := rfl

namespace Record

variable {table names : ByteArray} {i : Nat} {r : Record} {o : Option Symbol} {e : Error}

theorem denotes_iff {y : Symbol} {kind : SymbolKind} (known : kindOf r.info = some kind)
    (defined : r.Defined) :
    r.Denotes names y ↔ (y.name ≠ "" ∧ y.name.toUTF8.data.toList =
        (names.data.toList.drop r.nameOffset).takeWhile fun x => x ≠ 0) ∧
      Proper y.name ∧ y = make y.name r.value r.size kind := by
  have function := kindOf_eq_some known
  have same : y.kind = kind ↔ (y.kind = .function ↔ r.info &&& 0xf = 2) := by
    rw [← function]
    cases kind <;> cases y.kind <;> simp
  rw [eq_make_iff, same]
  constructor
  · intro h
    have thumb := h.thumb
    rw [h.kind, ← function] at thumb
    exact ⟨⟨h.nonempty, h.name⟩, ⟨h.nonempty, h.plain⟩, rfl, h.size, h.kind, thumb, h.address⟩
  · rintro ⟨⟨nonempty, name⟩, ⟨-, plain⟩, -, size, kind_iff, thumb, address⟩
    rw [function, ← kind_iff] at thumb
    exact ⟨defined, name, nonempty, plain, size, kind_iff, thumb, address⟩

theorem StandsAt.read (stands : r.StandsAt table i) : Symbol.read table names i =
    match kindOf r.info with
    | none => .ok none
    | some kind =>
      if r.place = 0 then .ok none
      else (nameAt names r.nameOffset).map fun s =>
        if Proper s then some (make s r.value r.size kind) else none := by
  rw [Symbol.read, size_eq_ok.2 stands.nameOffset, word_eq_ok.2 stands.value,
    word_eq_ok.2 stands.size, stands.info, half_eq_ok.2 stands.place]
  rfl

theorem StandsAt.read_of_not_defined (stands : r.StandsAt table i) (other : ¬r.Defined) :
    Symbol.read table names i = .ok none := by
  rw [stands.read]
  cases known : kindOf r.info with
  | none => rfl
  | some kind =>
    have listed : r.info &&& 0xf = 1 ∨ r.info &&& 0xf = 2 := by
      refine not_not.1 fun unknown => ?_
      rw [kindOf_eq_none.2 unknown] at known
      cases known
    exact if_pos (not_not.1 fun placed => other ⟨listed, placed⟩)

theorem StandsAt.read_of_defined (names : ByteArray) (stands : r.StandsAt table i)
    (defined : r.Defined) :
    ∃ kind, kindOf r.info = some kind ∧
      Symbol.read table names i = (nameAt names r.nameOffset).map fun s =>
        if Proper s then some (make s r.value r.size kind) else none := by
  rw [stands.read]
  cases known : kindOf r.info with
  | none => exact absurd defined.1 (kindOf_eq_none.1 known)
  | some kind => exact ⟨kind, rfl, if_neg defined.2⟩

/-- A record is refused only for its name, and only if it is that of a defined symbol. -/
theorem StandsAt.read_eq_error (stands : r.StandsAt table i) :
    Symbol.read table names i = .error e ↔
      e = .outOfBounds .symbolName ∧ r.Defined ∧ names.size < r.nameOffset := by
  by_cases defined : r.Defined
  · obtain ⟨kind, -, read⟩ := stands.read_of_defined names defined
    by_cases beyond : names.size < r.nameOffset
    · rw [read, nameAt_of_beyond beyond]
      change Except.error _ = Except.error e ↔ _
      rw [Except.error.injEq]
      exact ⟨fun h => ⟨h.symm, defined, beyond⟩, fun h => h.1.symm⟩
    · obtain ⟨name, found, -⟩ := exists_nameAt (Nat.not_lt.1 beyond)
      rw [read, found]
      exact ⟨nofun, fun h => absurd h.2.2 beyond⟩
  · rw [stands.read_of_not_defined defined]
    exact ⟨nofun, fun h => absurd h.2.1 defined⟩

theorem StandsAt.denotes_iff_of_read (stands : r.StandsAt table i)
    (read : Symbol.read table names i = .ok o) (y : Symbol) :
    o = some y ↔ r.Denotes names y := by
  by_cases defined : r.Defined
  · obtain ⟨kind, known, read'⟩ := stands.read_of_defined names defined
    rw [denotes_iff known defined]
    by_cases beyond : names.size < r.nameOffset
    · rw [read', nameAt_of_beyond beyond] at read
      cases read
    · obtain ⟨name, found, unique⟩ := exists_nameAt (Nat.not_lt.1 beyond)
      rw [read', found] at read
      cases read
      constructor
      · intro h
        change (if Proper name then _ else _) = some y at h
        split at h
        · next proper =>
          cases h
          exact ⟨⟨proper.1, (unique name proper.1).1 rfl⟩, proper, rfl⟩
        · cases h
      · rintro ⟨⟨nonempty, bytes⟩, proper, made⟩
        obtain rfl := (unique y.name nonempty).2 bytes
        exact (if_pos proper).trans (congrArg some made.symm)
  · rw [stands.read_of_not_defined defined] at read
    cases read
    exact ⟨nofun, fun h => absurd h.defined defined⟩

end Record

/-! ### Lists -/

inductive Listing (names : ByteArray) : List Record → List Symbol → Prop where
  | nil : Listing names [] []
  | listed {r : Record} {y : Symbol} {records : List Record} {symbols : List Symbol}
    (denotes : r.Denotes names y) (rest : Listing names records symbols) :
    Listing names (r :: records) (y :: symbols)
  | skipped {r : Record} {records : List Record} {symbols : List Symbol}
    (other : ∀ y, ¬r.Denotes names y) (rest : Listing names records symbols) :
    Listing names (r :: records) symbols

/-- A function's address is even: its lowest bit has been taken as a mark. -/
theorem Listing.even {names : ByteArray} {records : List Record} {symbols : List Symbol}
    (listing : Listing names records symbols) :
    ∀ y ∈ symbols, y.kind = .function → y.address.toNat % 2 = 0 := by
  induction listing with
  | nil => exact nofun
  | @listed r y records symbols denotes rest ih =>
    refine List.forall_mem_cons.2 ⟨fun function => ?_, ih⟩
    have address := denotes.address
    by_cases thumb : y.thumb = true
    · have odd := (denotes.thumb.1 thumb).2
      rw [if_pos thumb] at address
      omega
    · have even : ¬r.value.toNat % 2 = 1 := fun odd => thumb (denotes.thumb.2 ⟨function, odd⟩)
      rw [if_neg thumb] at address
      omega
  | skipped other rest ih => exact ih

theorem listing_of_mapM {table names : ByteArray} {place : Nat → Nat} {l : List Nat}
    {found : List (Option Symbol)} (room : ∀ k ∈ l, place k + 16 ≤ table.size)
    (read : l.mapM (fun k => Symbol.read table names (place k)) = .ok found) :
    ∃ records, List.Forall₂ (fun k r => Record.StandsAt table (place k) r) l records ∧
      Listing names records (found.filterMap id) := by
  induction l generalizing found with
  | nil =>
    cases read
    exact ⟨[], .nil, .nil⟩
  | cons k l ih =>
    obtain ⟨first, room⟩ := List.forall_mem_cons.1 room
    rw [List.mapM_cons] at read
    obtain ⟨o, ho, read⟩ := bind_eq_ok.1 read
    obtain ⟨rest, hrest, read⟩ := bind_eq_ok.1 read
    cases read
    obtain ⟨r, stands⟩ := Record.exists_standsAt first
    obtain ⟨records, all, listing⟩ := ih room hrest
    have denotes := stands.denotes_iff_of_read ho
    refine ⟨r :: records, .cons stands all, ?_⟩
    cases o with
    | none => exact .skipped (fun y h => nomatch (denotes y).2 h) listing
    | some y => exact .listed ((denotes y).1 rfl) listing

end Symbol

/-! ### Tables -/

namespace Section

variable {data : ByteArray} {l : List Section} {s n : Section} {part : Region} {e : Error}

def contents (data : ByteArray) (s : Section) : ByteArray :=
  data.extract s.offset (s.offset + s.size)

/-- What is wrong with a symbol table: its link, then the end of its names, then its own end, then a
name that starts beyond its names. -/
inductive TableFlaw (data : ByteArray) (l : List Section) (s : Section) : Error → Prop where
  | link (missing : l.length ≤ s.link) : TableFlaw data l s (.outOfBounds .nameTableLink)
  | names {n : Section} (linked : l[s.link]? = some n) (short : data.size < n.offset + n.size) :
    TableFlaw data l s (.outOfBounds .nameTable)
  | records {n : Section} (linked : l[s.link]? = some n) (names : n.offset + n.size ≤ data.size)
    (short : data.size < s.offset + s.size) : TableFlaw data l s (.outOfBounds .symbolTable)
  | name {n : Section} {k : Nat} {r : Symbol.Record} (linked : l[s.link]? = some n)
    (names : n.offset + n.size ≤ data.size) (records : s.offset + s.size ≤ data.size)
    (whole : k < s.size / 16) (stands : r.StandsAt data (s.offset + k * 16))
    (defined : r.Defined) (beyond : n.size < r.nameOffset) :
    TableFlaw data l s (.outOfBounds .symbolName)

/-- What the whole records of a table stand for, with their names in the linked section. -/
def Lists (data : ByteArray) (l : List Section) (s : Section) (symbols : List Symbol) : Prop :=
  ∃ n records, l[s.link]? = some n ∧ n.offset + n.size ≤ data.size ∧
    s.offset + s.size ≤ data.size ∧
    List.Forall₂ (fun k r => Symbol.Record.StandsAt data (s.offset + k * 16) r)
      (List.range (s.size / 16)) records ∧
    Symbol.Listing (n.contents data) records symbols

theorem bytes_of_fits (fits : s.offset + s.size ≤ data.size) :
    s.bytes data part = .ok (s.contents data) := by
  have slice : Bytes.slice? data s.offset s.size = some (s.contents data) := if_pos fits
  rw [bytes, slice]
  rfl

theorem bytes_of_short (short : data.size < s.offset + s.size) :
    s.bytes data part = .error (.outOfBounds part) := by
  have slice : Bytes.slice? data s.offset s.size = none := if_neg (Nat.not_le.2 short)
  rw [bytes, slice]
  rfl

theorem size_contents (fits : s.offset + s.size ≤ data.size) : (s.contents data).size = s.size :=
  Bytes.size_extract_of_le fits

theorem tableSymbols_of_linked (linked : l[s.link]? = some n) :
    tableSymbols data l s = n.bytes data .nameTable >>= fun names =>
      s.bytes data .symbolTable >>= fun table =>
        (List.range (table.size / 16)).mapM (fun k => Symbol.read table names (k * 16)) >>=
          fun found => pure (found.filterMap id) := by
  rw [tableSymbols, linked]
  rfl

theorem room_of_whole {k : Nat} (fits : s.offset + s.size ≤ data.size) (whole : k < s.size / 16) :
    k * 16 + 16 ≤ (s.contents data).size := by
  rw [size_contents fits]
  omega

theorem standsAt_contents {k : Nat} {r : Symbol.Record} (fits : s.offset + s.size ≤ data.size)
    (room : k + 16 ≤ (s.contents data).size) :
    r.StandsAt data (s.offset + k) ↔ r.StandsAt (s.contents data) k :=
  Symbol.Record.standsAt_of_placed (Bytes.placed_extract fits) room

section Fits

variable (linked : l[s.link]? = some n) (names : n.offset + n.size ≤ data.size)
  (records : s.offset + s.size ≤ data.size)
include linked names records

theorem tableSymbols_of_fits : tableSymbols data l s =
    ((List.range (s.size / 16)).mapM fun k =>
      Symbol.read (s.contents data) (n.contents data) (k * 16)) >>= fun found =>
        pure (found.filterMap id) := by
  rw [tableSymbols_of_linked linked, bytes_of_fits names, bytes_of_fits records,
    ← size_contents records]
  rfl

theorem tableSymbols_eq_error_of_fits : tableSymbols data l s = .error e ↔
    e = .outOfBounds .symbolName ∧ ∃ k < s.size / 16, ∃ r : Symbol.Record,
      r.StandsAt data (s.offset + k * 16) ∧ r.Defined ∧ n.size < r.nameOffset := by
  have only : ∀ k ∈ List.range (s.size / 16), ∀ d,
      Symbol.read (s.contents data) (n.contents data) (k * 16) = .error d →
        d = .outOfBounds .symbolName := by
    intro k hk d failed
    have room := room_of_whole records (List.mem_range.1 hk)
    obtain ⟨r, stands⟩ := Symbol.Record.exists_standsAt room
    exact (stands.read_eq_error.1 failed).1
  rw [tableSymbols_of_fits linked names records, bind_eq_error,
    or_iff_left fun ⟨_, _, h⟩ => pure_ne_error h, mapM_eq_error fun _ _ => Iff.rfl,
    firstFlaw_iff_of_eq only]
  apply and_congr_right
  intro _
  constructor
  · rintro ⟨k, hk, failed⟩
    have whole := List.mem_range.1 hk
    obtain ⟨r, stands⟩ := Symbol.Record.exists_standsAt (room_of_whole records whole)
    obtain ⟨-, defined, beyond⟩ := stands.read_eq_error.1 failed
    rw [size_contents names] at beyond
    exact ⟨k, whole, r, (standsAt_contents records stands.room).2 stands, defined, beyond⟩
  · rintro ⟨k, whole, r, stands, defined, beyond⟩
    have room := room_of_whole records whole
    rw [← size_contents names] at beyond
    refine ⟨k, List.mem_range.2 whole, ?_⟩
    exact ((standsAt_contents records room).1 stands).read_eq_error.2 ⟨rfl, defined, beyond⟩

theorem lists_of_fits {symbols : List Symbol} (read : tableSymbols data l s = .ok symbols) :
    s.Lists data l symbols := by
  rw [tableSymbols_of_fits linked names records] at read
  obtain ⟨found, hfound, read⟩ := bind_eq_ok.1 read
  cases read
  have room : ∀ k ∈ List.range (s.size / 16), k * 16 + 16 ≤ (s.contents data).size :=
    fun k hk => room_of_whole records (List.mem_range.1 hk)
  obtain ⟨found, stand, listing⟩ := Symbol.listing_of_mapM room hfound
  refine ⟨n, found, linked, names, records, stand.imp fun k r h => ?_, listing⟩
  exact (standsAt_contents records h.room).2 h

end Fits

theorem tableSymbols_of_flaw (flaw : s.TableFlaw data l e) : tableSymbols data l s = .error e := by
  cases flaw with
  | link missing =>
    rw [tableSymbols, List.getElem?_eq_none missing]
    rfl
  | names linked short =>
    rw [tableSymbols_of_linked linked, bytes_of_short short]
    rfl
  | records linked names short =>
    rw [tableSymbols_of_linked linked, bytes_of_fits names, bytes_of_short short]
    rfl
  | name linked names records whole stands defined beyond =>
    apply (tableSymbols_eq_error_of_fits linked names records).2
    exact ⟨rfl, _, whole, _, stands, defined, beyond⟩

/-- A table without a flaw gives what it lists. -/
theorem tableSymbols_of_sound (sound : ∀ e, ¬s.TableFlaw data l e) :
    ∃ symbols, tableSymbols data l s = .ok symbols ∧ s.Lists data l symbols := by
  have inside : s.link < l.length := Nat.not_le.1 fun missing => sound _ (.link missing)
  have linked := List.getElem?_eq_getElem inside
  have names := Nat.not_lt.1 fun short => sound _ (.names linked short)
  have records := Nat.not_lt.1 fun short => sound _ (.records linked names short)
  cases read : tableSymbols data l s with
  | error e =>
    obtain ⟨-, k, whole, r, stands, defined, beyond⟩ :=
      (tableSymbols_eq_error_of_fits linked names records).1 read
    exact absurd (.name linked names records whole stands defined beyond) (sound _)
  | ok symbols => exact ⟨symbols, rfl, lists_of_fits linked names records read⟩

theorem tableSymbols_eq_error : tableSymbols data l s = .error e ↔ s.TableFlaw data l e := by
  refine eq_error_iff (fun _ => tableSymbols_of_flaw) fun sound => ?_
  obtain ⟨symbols, read, -⟩ := tableSymbols_of_sound sound
  exact ⟨symbols, read⟩

theorem lists_of_tableSymbols {symbols : List Symbol}
    (read : tableSymbols data l s = .ok symbols) : s.Lists data l symbols := by
  have sound : ∀ e, ¬s.TableFlaw data l e := by
    intro e flaw
    rw [tableSymbols_of_flaw flaw] at read
    cases read
  obtain ⟨listed, read', lists⟩ := tableSymbols_of_sound sound
  cases read.symm.trans read'
  exact lists

theorem even_of_lists {tables : List Section} {symbols : List (List Symbol)}
    (lists : List.Forall₂ (Lists data l) tables symbols) :
    ∀ y ∈ symbols.flatten, y.kind = .function → y.address.toNat % 2 = 0 := by
  induction lists with
  | nil => exact nofun
  | @cons s found tables symbols first rest ih =>
    obtain ⟨n, records, -, -, -, -, listing⟩ := first
    rw [List.flatten_cons]
    exact List.forall_mem_append.2 ⟨listing.even, ih⟩

end Section

theorem definedSymbols_eq_error {data : ByteArray} {l : List Section} {e : Error} :
    definedSymbols data l = .error e ↔
      FirstFlaw (Section.TableFlaw data l) (l.filter fun s => s.IsSymbolTable) e := by
  rw [← mapM_eq_error fun _ _ => Section.tableSymbols_eq_error, definedSymbols, bind_eq_error]
  exact or_iff_left fun ⟨_, _, h⟩ => pure_ne_error h

theorem exists_definedSymbols {data : ByteArray} {l : List Section}
    (sound : ∀ s ∈ l, s.IsSymbolTable → ∀ e, ¬s.TableFlaw data l e) :
    ∃ symbols, definedSymbols data l = .ok symbols := by
  apply exists_eq_ok
  intro e failed
  obtain ⟨s, hs, flaw⟩ := (definedSymbols_eq_error.1 failed).exists_mem
  obtain ⟨hs, isTable⟩ := List.mem_filter.1 hs
  exact sound s hs (of_decide_eq_true isTable) e flaw

theorem definedSymbols_eq_ok {data : ByteArray} {l : List Section} {symbols : List Symbol}
    (read : definedSymbols data l = .ok symbols) :
    ∃ tables, List.Forall₂ (Section.Lists data l) (l.filter fun s => s.IsSymbolTable) tables ∧
      symbols = tables.flatten := by
  obtain ⟨tables, htables, h⟩ := bind_eq_ok.1 read
  cases h
  exact ⟨tables, (mapM_eq_ok.1 htables).imp fun _ _ => Section.lists_of_tableSymbols, rfl⟩

end Elf

end Disarm
