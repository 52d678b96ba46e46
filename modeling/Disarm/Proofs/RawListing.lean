import Disarm.Proofs.FrontEnds
import Disarm.Proofs.LineShape
import Disarm.Proofs.OneSession
import Disarm.Proofs.Placement
/-!
Listings read back. Without symbols a listing has one line for each instruction, and a line that shows
the word is cut into columns of fixed width. Main statement: the columns give back the addresses and
the bytes, and without the column of the word the line is the one that does not show it.
-/

namespace Disarm

/-! ### Columns -/

/-- The value of one or more hexadecimal digits, if it has 32 bits. -/
def Hex.value? (l : List Char) : Option (BitVec 32) :=
  if l = [] then none else (Numeral.digits 16 0x100000000 0 l).toOption.map (BitVec.ofNat 32)

theorem Hex.value?_digits (v : BitVec 32) : value? (digits v.toNat) = some v := by
  have some_digit : digits v.toNat ≠ [] := Nat.toDigits_ne_nil
  rw [value?, if_neg some_digit, Numeral.digits_digits v.isLt]
  exact congrArg some (BitVec.ofNat_toNat 32 v)

theorem Hex.value?_places (v : BitVec 32) : value? (places 8 v.toNat) = some v := by
  have some_digit : places 8 v.toNat ≠ [] := List.ne_nil_of_length_pos (by simp [length_places])
  rw [value?, if_neg some_digit, Numeral.digits_places v.isLt v.isLt]
  exact congrArg some (BitVec.ofNat_toNat 32 v)

/-- The columns of a line that shows the word. The mark ends the address and the gap the word. -/
structure Columns where
  address : List Char
  mark : List Char
  word : List Char
  gap : List Char
  instruction : List Char

namespace Columns

def text (c : Columns) : List Char := c.address ++ (c.mark ++ (c.word ++ (c.gap ++ c.instruction)))

def withoutWord (c : Columns) : List Char := c.address ++ (c.mark ++ c.instruction)

def cut (line : List Char) : Columns where
  address := line.take 8
  mark := (line.drop 8).take 2
  word := (line.drop 10).take 8
  gap := (line.drop 18).take 1
  instruction := line.drop 19

def read? (c : Columns) : Option (Addr × Word) :=
  if c.mark = [':', '\t'] ∧ c.gap = ['\t'] then do
    let loc ← Hex.value? (c.address.dropWhile (· = ' '))
    let w ← Hex.value? c.word
    return (loc, w)
  else none

structure Fixed (c : Columns) : Prop where
  address : c.address.length = 8
  mark : c.mark.length = 2
  word : c.word.length = 8
  gap : c.gap.length = 1

theorem Fixed.cut_text {c : Columns} (fixed : c.Fixed) : cut c.text = c := by
  obtain ⟨address, mark, word, gap⟩ := fixed
  have first : c.text.drop 8 = c.mark ++ (c.word ++ (c.gap ++ c.instruction)) :=
    List.drop_left' address
  have second : c.text.drop 10 = c.word ++ (c.gap ++ c.instruction) := by
    rw [← List.drop_drop (i := 2) (j := 8), first, List.drop_left' mark]
  have third : c.text.drop 18 = c.gap ++ c.instruction := by
    rw [← List.drop_drop (i := 8) (j := 10), second, List.drop_left' word]
  have fourth : c.text.drop 19 = c.instruction := by
    rw [← List.drop_drop (i := 1) (j := 18), third, List.drop_left' gap]
  rw [cut, first, second, third, fourth, List.take_left' mark, List.take_left' word,
    List.take_left' gap, text, List.take_left' address]

def ofWord (loc : Addr) (w : Word) : Columns where
  address := (Hex.digits loc.toNat).leftpad 8 ' '
  mark := [':', '\t']
  word := Hex.places 8 w.toNat
  gap := ['\t']
  instruction :=
    (Piece.render (SymbolTable.annotate none) ((Instruction.decode loc w).body false)).toList

theorem fixed_ofWord (loc : Addr) (w : Word) : (ofWord loc w).Fixed where
  address := by
    -- Padded with zeros the digits fill eight places, so there are at most eight of them.
    have padded := congrArg List.length (Hex.leftpad_digits (k := 7) loc.isLt)
    rw [List.length_leftpad, Hex.length_places] at padded
    rw [ofWord, List.length_leftpad, padded]
  mark := rfl
  word := Hex.length_places 8 _
  gap := rfl

theorem read?_ofWord (loc : Addr) (w : Word) : (ofWord loc w).read? = some (loc, w) := by
  have digits : ((Hex.digits loc.toNat).leftpad 8 ' ').dropWhile (· = ' ') =
      Hex.digits loc.toNat := by
    rw [List.leftpad, List.dropWhile_append_of_pos]
    · apply List.dropWhile_eq_self_iff.2
      intro some_digit blank
      have letter := Text.letter_of_mem_toDigits (by decide) (by decide) (List.getElem_mem some_digit)
      rw [of_decide_eq_true blank] at letter
      exact absurd letter (by decide)
    · intro c hc
      rw [List.eq_of_mem_replicate hc]
      rfl
  rw [read?, if_pos ⟨rfl, rfl⟩, ofWord, digits, Hex.value?_digits, Hex.value?_places]
  rfl

theorem notMem_text_ofWord (loc : Addr) (w : Word) : '\n' ∉ (ofWord loc w).text := by
  have body : Text.Over (· ≠ '\n')
      (Piece.render (SymbolTable.annotate none) ((Instruction.decode loc w).body false)) := by
    rw [annotate_none]
    exact Instruction.over_body_text loc w false
  have mark : '\n' ∉ [':', '\t'] := by decide
  have gap : '\n' ∉ ['\t'] := by decide
  simp only [text, List.mem_append, not_or]
  refine ⟨fun address => ?_, mark, fun digit => ?_, gap, fun c => body _ c rfl⟩
  · rcases List.mem_append.1 address with blank | digit
    · exact absurd (List.eq_of_mem_replicate blank) (by decide)
    · exact absurd (Text.letter_of_mem_toDigits (by decide) (by decide) digit) (by decide)
  · exact absurd (Hex.letter_of_mem_places digit) (by decide)

end Columns

/-! ### Lines -/

/-- Lines that hold no line end are found again. -/
theorem splitOn_lines {lines : List (List Char)} (h : ∀ line ∈ lines, '\n' ∉ line) :
    (lines.flatMap (· ++ ['\n'])).splitOn '\n' = lines ++ [[]] := by
  induction lines with
  | nil => rfl
  | cons line lines ih =>
    obtain ⟨first, rest⟩ := List.forall_mem_cons.1 h
    have cut (more : List Char) :
        (line ++ '\n' :: more).splitOn '\n' = line.splitOn '\n' ++ more.splitOn '\n' :=
      List.splitOnP_append_cons line more (beq_self_eq_true '\n')
    rw [List.flatMap_cons, List.append_assoc, List.singleton_append, cut,
      List.splitOn_eq_singleton first, ih rest, List.singleton_append, List.cons_append]

namespace Printout

theorem toList_stepText (raw first : Bool) (loc : Addr) (w : Word) :
    (stepText none raw first loc w).toList =
      (if raw then (Columns.ofWord loc w).text else (Columns.ofWord loc w).withoutWord) ++
        ['\n'] := by
  have word : (Hex.padded 8 w.toNat).toList = Hex.places 8 w.toNat := by
    rw [Hex.padded, String.toList_ofList, Hex.leftpad_digits (k := 7) w.isLt]
  have column : (Instruction.decode loc w).body true =
    .text (Hex.padded 8 w.toNat ++ "\t") :: (Instruction.decode loc w).body false := rfl
  rw [stepText, Instruction.pieces_eq_body, Piece.render_append]
  cases raw with
  | true =>
    simp [column, Piece.render, Hex.aligned, Columns.ofWord, Columns.text, word]
  | false =>
    simp [Piece.render, Hex.aligned, Columns.ofWord, Columns.withoutWord]

end Printout

/-! ### Words -/

theorem Image.placed_of_fetch {i : Image} {a : Addr} {w : Word} (h : i.fetch a = .ok w) :
    Bytes.Placed i.data (a.toNat - i.base.toNat) (Bytes.ofWord w) := by
  unfold fetch word? at h
  split at h
  · split at h
    · next found =>
      split at found
      · next above =>
        cases h
        rw [BitVec.toNat_sub_of_le above] at found
        exact Bytes.word?_eq_some_iff.1 found
      · cases found
    · cases h
  · cases h

theorem Bytes.placed_ofWords {b : ByteArray} {word : Nat → Word} {n o : Nat} (room : o ≤ b.size)
    (h : ∀ k < n, Placed b (o + 4 * k) (ofWord (word k))) :
    Placed b o (ofWords ((List.range n).map word)) := by
  induction n generalizing word o with
  | zero => exact ⟨room, fun k hk => absurd hk (Nat.not_lt_zero k)⟩
  | succ n ih =>
    have first : Placed b o (ofWord (word 0)) := h 0 n.succ_pos
    rw [List.range_succ_eq_map, List.map_cons, List.map_map]
    apply placed_append.2 ⟨first, ih first.fits ?_⟩
    intro k hk
    have next := h (k + 1) (Nat.succ_lt_succ hk)
    rwa [Nat.mul_succ, Nat.add_comm (4 * k), ← Nat.add_assoc] at next

/-! ### Listings -/

namespace Printout

variable {i : Image} {start : Addr}

def columnsAt (i : Image) (start : Addr) (k : Nat) : Columns :=
  .ofWord (start + BitVec.ofNat 32 (4 * k)) (i.shown (start + BitVec.ofNat 32 (4 * k)))

theorem exists_text (aligned : start.Aligned) (raw : Bool) (count : Nat) :
    ∃ text : String,
      (write ⟨i, none, raw⟩ start count {}).count = .ok (i.wordsFrom start count) ∧
      (write ⟨i, none, raw⟩ start count {}).sink.bytes = text.toUTF8 ∧
      text.toList = (List.range (i.wordsFrom start count)).flatMap fun k =>
        (if raw then (columnsAt i start k).text else (columnsAt i start k).withoutWord) ++
          ['\n'] := by
  obtain ⟨log, written⟩ := write_of_aligned (l := ⟨i, none, raw⟩) aligned count
  rw [written]
  refine ⟨_, rfl, rfl, ?_⟩
  rw [String.toList_join, List.flatMap_map]
  simp only [toList_stepText]
  rfl

theorem ofWords_shown (aligned : start.Aligned) (count : Nat) :
    Bytes.ofWords ((List.range (i.wordsFrom start count)).map fun k =>
        i.shown (start + BitVec.ofNat 32 (4 * k))) =
      i.data.extract (start.toNat - i.base.toNat)
        (start.toNat - i.base.toNat + 4 * i.wordsFrom start count) := by
  have stand : ∀ k < i.wordsFrom start count,
      Bytes.Placed i.data (start.toNat - i.base.toNat + 4 * k)
        (Bytes.ofWord (i.shown (start + BitVec.ofNat 32 (4 * k)))) := by
    intro k hk
    obtain ⟨origin, above, -⟩ := Image.hasWord_of_lt_wordsFrom (Nat.zero_lt_of_lt hk)
    have low := BitVec.le_def.1 above
    have place : start.toNat - i.base.toNat + 4 * k =
        (start + BitVec.ofNat 32 (4 * k)).toNat - i.base.toNat := by
      rw [(Image.hasWord_of_lt_wordsFrom hk).1]
      omega
    rw [place]
    exact Image.placed_of_fetch (Image.fetch_of_lt_wordsFrom aligned hk)
  cases words : i.wordsFrom start count with
  | zero =>
    rw [Nat.mul_zero, Nat.add_zero, ByteArray.extract_same]
    rfl
  | succ n =>
    rw [words] at stand
    have placed := Bytes.placed_ofWords
      (Nat.le_trans (Nat.le_add_right _ _) (stand 0 n.succ_pos).fits) stand
    have extracted := placed.extract_eq
    rw [Bytes.size_ofWords, List.length_map, List.length_range] at extracted
    exact extracted.symm

/-- A listing that shows the words is read back. It has a line for each instruction, the columns of
its lines hold the addresses and the bytes of the image, and without the words it is the listing that
does not show them. -/
theorem listing_read_back (i : Image) (start : Addr) (count : Nat) (aligned : 4 ∣ start.toNat) :
    ∃ (n : Nat) (shown hidden : String) (lines : List (List Char)) (rows : List (Addr × Word)),
      (write ⟨i, none, true⟩ start count {}).count = .ok n ∧
      (write ⟨i, none, true⟩ start count {}).sink.bytes = shown.toUTF8 ∧
      (write ⟨i, none, false⟩ start count {}).count = .ok n ∧
      (write ⟨i, none, false⟩ start count {}).sink.bytes = hidden.toUTF8 ∧
      shown.toList.splitOn '\n' = lines ++ [[]] ∧ lines.length = n ∧
      lines.mapM (fun line => (Columns.cut line).read?) = some rows ∧
      rows.map (fun r => r.1.toNat) = (List.range n).map (fun k => start.toNat + 4 * k) ∧
      Bytes.ofWords (rows.map Prod.snd) =
        i.data.extract (start.toNat - i.base.toNat) (start.toNat - i.base.toNat + 4 * n) ∧
      hidden.toList = lines.flatMap fun line => (Columns.cut line).withoutWord ++ ['\n'] := by
  have aligned : start.Aligned := Addr.aligned_iff_dvd.2 aligned
  obtain ⟨shown, countShown, bytesShown, textShown⟩ := exists_text (i := i) aligned true count
  obtain ⟨hidden, countHidden, bytesHidden, textHidden⟩ := exists_text (i := i) aligned false count
  simp only [if_true] at textShown
  simp only [Bool.false_eq_true, if_false] at textHidden
  refine ⟨_, shown, hidden, (List.range (i.wordsFrom start count)).map
    fun k => (columnsAt i start k).text, (List.range (i.wordsFrom start count)).map
    fun k => (start + BitVec.ofNat 32 (4 * k), i.shown (start + BitVec.ofNat 32 (4 * k))),
    countShown, bytesShown, countHidden, bytesHidden, ?_, ?_, ?_, ?_, ?_, ?_⟩
  · rw [textShown, ← splitOn_lines, List.flatMap_map]
    intro line hline
    obtain ⟨k, -, rfl⟩ := List.mem_map.1 hline
    exact Columns.notMem_text_ofWord _ _
  · rw [List.length_map, List.length_range]
  · have read : ((fun line => (Columns.cut line).read?) ∘ fun k => (columnsAt i start k).text) =
        fun k => pure (start + BitVec.ofNat 32 (4 * k),
          i.shown (start + BitVec.ofNat 32 (4 * k))) := by
      funext k
      rw [Function.comp_apply, columnsAt, (Columns.fixed_ofWord _ _).cut_text,
        Columns.read?_ofWord]
      rfl
    rw [List.mapM_map, read, List.mapM_pure]
    rfl
  · rw [List.map_map]
    apply List.map_congr_left
    intro k hk
    exact (Image.hasWord_of_lt_wordsFrom (List.mem_range.1 hk)).1
  · rw [List.map_map]
    exact ofWords_shown aligned count
  · rw [textHidden, List.flatMap_map]
    congr
    funext k
    rw [columnsAt, (Columns.fixed_ofWord _ _).cut_text]

/-- Two words between odd bytes, the first one with a zero in front. -/
def dumped : Image := ⟨0x7fe2, ⟨#[5, 6, 0x1e, 0xff, 0x2f, 0x01, 0xfe, 0xff, 0xff, 0xea, 7]⟩⟩

theorem listing_read_back_dumped :
    4 ∣ (0x7fe4 : Addr).toNat ∧
    ∃ (shown : String) (lines : List (List Char)) (rows : List (Addr × Word)),
      shown = "    7fe4:\t012fff1e\tbxeq\tlr\n    7fe8:\teafffffe\tb\t0x00007fe8\n" ∧
      (write ⟨dumped, none, true⟩ 0x7fe4 9 {}).sink.bytes = shown.toUTF8 ∧
      shown.toList.splitOn '\n' = lines ++ [[]] ∧
      lines.mapM (fun line => (Columns.cut line).read?) = some rows ∧
      rows.map (fun r => r.1.toNat) = [0x7fe4, 0x7fe8] ∧
      Bytes.ofWords (rows.map Prod.snd) = ⟨#[0x1e, 0xff, 0x2f, 0x01, 0xfe, 0xff, 0xff, 0xea]⟩ := by
  have aligned : 4 ∣ (0x7fe4 : Addr).toNat := by decide
  obtain ⟨n, shown, hidden, lines, rows, count, text, -, -, cut, -, read, addresses, words, -⟩ :=
    listing_read_back dumped 0x7fe4 9 aligned
  have two : (write ⟨dumped, none, true⟩ 0x7fe4 9 {}).count = .ok 2 := by decide +kernel
  have printed : (write ⟨dumped, none, true⟩ 0x7fe4 9 {}).sink.bytes =
    "    7fe4:\t012fff1e\tbxeq\tlr\n    7fe8:\teafffffe\tb\t0x00007fe8\n".toUTF8 := by decide +kernel
  rw [two] at count
  cases count
  refine ⟨aligned, shown, lines, rows, ?_, text, cut, read, addresses, ?_⟩
  · exact String.toByteArray_inj.1 (text.symm.trans printed)
  · exact words.trans (by decide +kernel)

end Printout

end Disarm
