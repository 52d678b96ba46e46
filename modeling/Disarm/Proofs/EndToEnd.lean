import Disarm.Command.Arguments
import Disarm.Command.Run
import Disarm.Proofs.ProgramHeaders
import Disarm.Proofs.Rows
import Disarm.Proofs.StartAddress
/-!
From the bytes of a file to the text of its listing. Main statement: a run that succeeds lists the words
of the memory its program headers describe, from the start it was asked for, and nothing else.
-/

namespace Disarm

namespace Start

variable {entry s : Addr} {symbols : List Elf.Symbol} {start : Option Addr} {symbol : Option String}

/-- The address asked for: one given outright, else that of the first symbol with a name, else the
entry point. -/
def Resolves (entry : Addr) (symbols : List Elf.Symbol) :
    Option Addr → Option String → Addr → Prop
  | some a, _, s => s = a
  | none, some name, s => ∃ y, symbols.find? (·.name = name) = some y ∧ s = y.address
  | none, none, s => s = entry

theorem resolves_of_locate (h : locate entry symbols start symbol = .ok s) :
    Resolves entry symbols start symbol s ∧ s.Aligned := by
  obtain ⟨aligned, chosen⟩ := locate_eq_ok.1 h
  refine ⟨?_, Addr.aligned_iff_dvd.2 aligned⟩
  cases chosen with
  | given => rfl
  | named first arm => exact ⟨_, first.find?, rfl⟩
  | entry even => rfl

end Start

namespace Elf

theorem File.ofBytes_eq_ok {data : ByteArray} {f : File} (h : File.ofBytes data = .ok f) :
    ∃ r sections, Header.read data = .ok r ∧ f.entry = r.entry ∧ f.machine = r.machine ∧
      loadedSegments data r = .ok f.segments ∧
      sectionsOf data r = .ok sections ∧ definedSymbols data sections = .ok f.symbols := by
  unfold File.ofBytes at h
  obtain ⟨r, hr, h⟩ := bind_eq_ok.1 h
  obtain ⟨segments, hsegments, h⟩ := bind_eq_ok.1 h
  obtain ⟨sections, hsections, h⟩ := bind_eq_ok.1 h
  obtain ⟨symbols, hsymbols, h⟩ := bind_eq_ok.1 h
  cases h
  exact ⟨r, sections, hr, rfl, rfl, hsegments, hsections, hsymbols⟩

end Elf

namespace Command

theorem load_eq_ok {data : ByteArray} {f : Elf.File} {i : Image} (h : load data = .ok (f, i)) :
    Elf.File.ofBytes data = .ok f ∧ f.machine = Elf.armMachine ∧
      Image.ofSegments f.segments = .ok i := by
  unfold load at h
  split at h
  · cases h
  · next g hg =>
    split at h
    · cases h
    · next machine =>
      split at h
      · cases h
      · next hi =>
        cases h
        exact ⟨hg, Decidable.not_not.1 machine, hi⟩

theorem Plan.ofFile_eq_ok {o : Options} {data : ByteArray} {p : Plan} {log : Log}
    (h : Plan.ofFile o data = (.ok p, log)) :
    ∃ f i start, load data = .ok (f, i) ∧
      Start.locate f.entry f.symbols o.start o.symbol = .ok start ∧
      p = ⟨⟨i, if o.noSymbols then none else some (.ofElf f.symbols), o.raw⟩, start, o.count⟩ := by
  unfold Plan.ofFile at h
  split at h
  · cases h
  · next f i hload =>
    dsimp only at h
    split at h
    · cases h
    · next start hstart =>
      cases h
      exact ⟨f, i, start, hload, hstart, rfl⟩

theorem list_of_listed {d : Directory} {o : Options} {t : Target} (target : o.target d = .ok t)
    (h : (list d o).ending = .listed) :
    ∃ data plan log bytes more, d.read o.file = .ok data ∧ Plan.ofFile o data = (.ok plan, log) ∧
      plan.write t = (.ok bytes, more) ∧
      (list d o).output = if t = .output then bytes else .empty := by
  unfold list at h ⊢
  cases hdata : d.read o.file with
  | error e =>
    simp only [hdata] at h
    cases h
  | ok data =>
    rcases hplan : Plan.ofFile o data with ⟨_ | plan, log⟩
    · simp only [hdata, hplan] at h
      cases h
    · rcases hwrite : plan.write t with ⟨_ | bytes, more⟩
      · simp only [hdata, hplan, target, hwrite] at h
        cases h
      · refine ⟨data, plan, log, bytes, more, rfl, hplan, hwrite, ?_⟩
        simp only [hplan, target, hwrite]

theorem ending_list (d : Directory) (o : Options) :
    (list d o).ending = .listed ∨ ∃ f, (list d o).ending = .failed f := by
  unfold list
  dsimp only
  split
  · exact .inr ⟨_, rfl⟩
  · split
    · exact .inr ⟨_, rfl⟩
    · split
      · exact .inr ⟨_, rfl⟩
      · split
        · exact .inr ⟨_, rfl⟩
        · exact .inl rfl

theorem listed_of_status {understand : List String → Except Halt Options} {d : Directory}
    {args : List String} {o : Options} (parsed : understand args = .ok o)
    (h : (run understand d args).ending.status = 0) :
    run understand d args = list d o ∧ (list d o).ending = .listed := by
  have same : run understand d args = list d o := by
    rw [run, parsed]
  refine ⟨same, ?_⟩
  rw [same] at h
  rcases ending_list d o with listed | ⟨f, failed⟩
  · exact listed
  · rw [failed] at h
    simp [Ending.status] at h

theorem Plan.write_output {p : Plan} {word : Nat → Word} (aligned : p.start.Aligned)
    (h : ∀ k < p.printout.image.wordsFrom p.start p.count,
      p.printout.image.fetch (p.start + BitVec.ofNat 32 (4 * k)) = .ok (word k)) :
    (p.write .output).1 = .ok (String.join
      ((List.range (p.printout.image.wordsFrom p.start p.count)).map fun k =>
        Printout.stepText p.printout.symbols p.printout.raw (k = 0)
          (p.start + BitVec.ofNat 32 (4 * k)) (word k))).toUTF8 := by
  obtain ⟨log, written⟩ := Printout.write_eq p.count aligned h
  have free : Target.sink .output = {} := rfl
  unfold Plan.write
  rw [free, written]
  simp only [Target.obstacle, ite_self]

theorem load_spans {data : ByteArray} {f : Elf.File} {i : Image} (h : load data = .ok (f, i)) :
    ∃ r headers sections, Elf.Header.read data = .ok r ∧
      Elf.programHeaders data r = .ok headers ∧ f.entry = r.entry ∧
      Elf.sectionsOf data r = .ok sections ∧ Elf.definedSymbols data sections = .ok f.symbols ∧
      (∀ p ∈ headers.filter (·.IsCode), p.offset + p.fileSize ≤ data.size) ∧
      ((headers.filter (·.IsCode)).map (·.address.toNat)).min? = some i.base.toNat ∧
      ((headers.filter (·.IsCode)).map (·.stop)).max? = some i.stop ∧
      ∀ a, a.Aligned → i.HasWord a →
        i.fetch a = .ok (Elf.memoryWord data (headers.filter (·.IsCode)) a.toNat) := by
  obtain ⟨hf, -, hi⟩ := load_eq_ok h
  obtain ⟨r, sections, hr, entry, -, hsegments, hsections, hsymbols⟩ := Elf.File.ofBytes_eq_ok hf
  obtain ⟨headers, hheaders, within, segments⟩ := Elf.loadedSegments_eq_ok hsegments
  have fits : ∀ p ∈ headers.filter (·.IsCode), p.offset + p.fileSize ≤ data.size := by
    intro p hp
    obtain ⟨hp, code⟩ := List.mem_filter.1 hp
    exact within p hp (of_decide_eq_true code).1
  have code : ∀ p ∈ headers.filter (·.IsCode), p.executable = true := by
    intro p hp
    exact (of_decide_eq_true (List.mem_filter.1 hp).2).2
  have spans := Image.spans_of_ofSegments hi
  rw [segments, Elf.filter_described] at spans
  have low := spans.low
  have high := spans.high
  rw [List.map_map] at low
  rw [Elf.stops_described fits code] at high
  refine ⟨r, headers, sections, hr, hheaders, entry, hsections, hsymbols, fits, low, high, ?_⟩
  intro a aligned inside
  rw [spans.fetch aligned inside, Elf.wordAt_described fits code]

/-- A run that succeeds on standard output, whatever it is that understands the arguments. -/
theorem run_output {understand : List String → Except Halt Options} {d : Directory}
    {args : List String} {o : Options} (parsed : understand args = .ok o)
    (success : (run understand d args).ending.status = 0)
    (target : o.target d = .ok .output) :
    ∃ (data : ByteArray) (r : Elf.Header) (headers : List Elf.ProgramHeader)
      (sections : List Elf.Section) (symbols : List Elf.Symbol) (s : Addr) (lo hi : Nat),
      d.read o.file = .ok data ∧ Elf.Header.read data = .ok r ∧
      Elf.programHeaders data r = .ok headers ∧
      Elf.sectionsOf data r = .ok sections ∧ Elf.definedSymbols data sections = .ok symbols ∧
      Start.Resolves r.entry symbols o.start o.symbol s ∧
      (∀ p ∈ headers.filter (·.IsCode), p.offset + p.fileSize ≤ data.size) ∧
      ((headers.filter (·.IsCode)).map (·.address.toNat)).min? = some lo ∧
      ((headers.filter (·.IsCode)).map (·.stop)).max? = some hi ∧
      (run understand d args).output = (String.join
        ((List.range (if lo ≤ s.toNat ∧ s.toNat ≤ hi then
            min o.count ((min hi (2 ^ 32) - s.toNat) / 4) else 0)).map fun k =>
          Printout.stepText (if o.noSymbols then none else some (.ofElf symbols)) o.raw (k = 0)
            (s + BitVec.ofNat 32 (4 * k))
            (Elf.memoryWord data (headers.filter (·.IsCode)) (s.toNat + 4 * k)))).toUTF8 := by
  obtain ⟨same, listed⟩ := listed_of_status parsed success
  obtain ⟨data, plan, log, bytes, more, hdata, hplan, hwrite, output⟩ :=
    list_of_listed target listed
  obtain ⟨f, i, s, hload, hstart, rfl⟩ := Plan.ofFile_eq_ok hplan
  obtain ⟨r, headers, sections, hr, hheaders, entry, hsections, hsymbols, fits, low, high, fetch⟩ :=
    load_spans hload
  obtain ⟨resolves, aligned⟩ := Start.resolves_of_locate hstart
  -- Each word that is listed lies in the image whole, and there memory and image agree.
  have words : ∀ k < i.wordsFrom s o.count, i.fetch (s + BitVec.ofNat 32 (4 * k)) =
      .ok (Elf.memoryWord data (headers.filter (·.IsCode)) (s.toNat + 4 * k)) := by
    intro k hk
    obtain ⟨here, inside⟩ := Image.hasWord_of_lt_wordsFrom hk
    rw [fetch _ (aligned.add_mul k) inside, here]
  have written := Plan.write_output (p := ⟨⟨i, if o.noSymbols then none else some (.ofElf f.symbols),
    o.raw⟩, s, o.count⟩) aligned words
  rw [hwrite] at written
  cases written
  rw [entry] at resolves
  refine ⟨data, r, headers, sections, f.symbols, s, i.base.toNat, i.stop, hdata, hr, hheaders,
    hsections, hsymbols, resolves, fits, low, high, ?_⟩
  rw [same, output, if_pos rfl]
  rfl

/-- A directory with one file, two words of which are laid at `0x8000` and `0x8004`; the first has
room for three. -/
def overlapping : Directory where
  files := [("in.elf", ⟨#[
    0x7f, 0x45, 0x4c, 0x46, 1, 1, 1, 0, 0, 0, 0, 0, 0, 0, 0, 0,
    2, 0, 40, 0, 1, 0, 0, 0, 0x00, 0x80, 0, 0, 52, 0, 0, 0, 0, 0, 0, 0,
    0, 0, 0, 0, 52, 0, 32, 0, 2, 0, 40, 0, 0, 0, 0, 0,
    1, 0, 0, 0, 116, 0, 0, 0, 0x00, 0x80, 0, 0, 0x00, 0x80, 0, 0,
    4, 0, 0, 0, 12, 0, 0, 0, 5, 0, 0, 0, 4, 0, 0, 0,
    1, 0, 0, 0, 120, 0, 0, 0, 0x04, 0x80, 0, 0, 0x04, 0x80, 0, 0,
    4, 0, 0, 0, 4, 0, 0, 0, 5, 0, 0, 0, 4, 0, 0, 0,
    0x1e, 0xff, 0x2f, 0xe1, 0x01, 0x00, 0xa0, 0xe3]⟩)]

/-- Where the two overlap the later one shows, and what is left of the first one's room is zero. -/
theorem run_output_overlapping :
    (run Options.ofArguments overlapping ["in.elf"]).ending.status = 0 ∧
    ∃ (data : ByteArray) (headers : List Elf.ProgramHeader) (symbols : List Elf.Symbol) (s : Addr)
      (lo hi : Nat), overlapping.read "in.elf" = .ok data ∧
      ((headers.filter (·.IsCode)).map (·.address.toNat)).min? = some lo ∧
      ((headers.filter (·.IsCode)).map (·.stop)).max? = some hi ∧
      (String.join ((List.range (if lo ≤ s.toNat ∧ s.toNat ≤ hi then
            min 64 ((min hi (2 ^ 32) - s.toNat) / 4) else 0)).map fun k =>
          Printout.stepText (some (.ofElf symbols)) false (k = 0) (s + BitVec.ofNat 32 (4 * k))
            (Elf.memoryWord data (headers.filter (·.IsCode)) (s.toNat + 4 * k)))).toUTF8 =
        "    8000:\tbx\tlr\n    8004:\tmov\tr0, #0x1\n    8008:\tandeq\tr0, r0, r0\n".toUTF8 := by
  have parsed : Options.ofArguments ["in.elf"] = .ok { file := "in.elf" } := by decide +kernel
  have success : (run Options.ofArguments overlapping ["in.elf"]).ending.status = 0 := by decide +kernel
  have text : (run Options.ofArguments overlapping ["in.elf"]).output =
      "    8000:\tbx\tlr\n    8004:\tmov\tr0, #0x1\n    8008:\tandeq\tr0, r0, r0\n".toUTF8 := by
    decide +kernel
  obtain ⟨data, r, headers, sections, symbols, s, lo, hi, hdata, -, -, -, -, -, -, low, high,
    output⟩ := run_output parsed success rfl
  exact ⟨success, data, headers, symbols, s, lo, hi, hdata, low, high, output.symm.trans text⟩

end Command

end Disarm
