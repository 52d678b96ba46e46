import Disarm.Proofs.EndToEnd
import Disarm.Proofs.LimitedSink
import Disarm.Proofs.WithoutOutput
/-!
A run as a course of steps, each of which leaves its effects behind even if a later one fails. Main
statement: a run that fails has had no effect, and one with an output file puts there what it would
show without.
-/

namespace Disarm.Command

/-! ### Files -/

namespace Directory

variable (d : Directory) (name : String) (a b : ByteArray)

@[simp] theorem get?_put : (d.put name a).get? name = some a := by
  rw [get?, put, List.lookup_cons, beq_self_eq_true]

theorem get?_put_of_ne {other : String} (h : other ≠ name) :
    (d.put name a).get? other = d.get? other := by
  have differs : (other == name) = false := beq_false_of_ne h
  rw [get?, put, List.lookup_cons, differs, get?]
  change (d.files.filter (·.1 ≠ name)).lookup other = _
  induction d.files with
  | nil => rfl
  | cons f l ih =>
    by_cases same : f.1 = name
    · have skipped : (other == f.1) = false := by rw [same, differs]
      rw [List.filter_cons_of_neg (by simpa using same), List.lookup_cons, skipped]
      exact ih
    · rw [List.filter_cons_of_pos (by simpa using same), List.lookup_cons, List.lookup_cons, ih]

@[simp] theorem put_put : (d.put name a).put name b = d.put name b := by
  simp [put]

theorem target_out : d.target "out.txt" = .ok (.file "out.txt") := by
  have parts : ("out.txt".toList.splitOn '/').map String.ofList = ["out.txt"] := by decide +kernel
  have split : steps "out.txt" = .ok (.here, ["out.txt"]) := by
    rw [steps, if_neg (by decide), parts]
    rfl
  have step : (∃ data, d.step .here "out.txt" = .ok (.file "out.txt" data)) ∨
      d.step .here "out.txt" = .ok (.free true "out.txt") := by
    unfold Directory.step
    rw [if_neg (by decide), if_neg (by decide), if_neg (by decide)]
    cases d.get? "out.txt" with
    | none => exact .inr rfl
    | some data => exact .inl ⟨data, rfl⟩
  unfold target
  rcases step with ⟨data, step⟩ | step
  · simp [split, walk, step, bind, Except.bind, pure, Except.pure]
  · simp [split, walk, step, bind, Except.bind, pure, Except.pure]

end Directory

theorem Target.sink_of_free {t : Target} (free : t.obstacle = none) : t.sink = {} := by
  rw [sink, free]
  rfl

/-! ### Effects -/

/-- What a run can change: the working directory and what standard output has taken. -/
structure World where
  directory : Directory
  output : ByteArray := .empty

namespace World

/-- The surroundings after a target is opened: a file is made, or loses what it held. -/
def opened (w : World) (t : Target) : World := { w with directory := w.directory.save t .empty }

def passed (w : World) (t : Target) (b : ByteArray) : World :=
  match t with
  | .output => { w with output := w.output ++ b }
  | .file name =>
    { w with directory := w.directory.put name ((w.directory.get? name).getD .empty ++ b) }
  | .elsewhere | .blocked _ => w

def pass (t : Target) : List Part → Sink → World → Option WriteError × World
  | [], _, w => (none, w)
  | p :: l, s, w =>
    match s.write p.text with
    | (true, s) => pass t l s (w.passed t p.bytes)
    | (false, _) => (some p.failure, w)

end World

namespace Plan

def parts (p : Plan) : List Part := p.printout.parts p.start p.count

def bytes (p : Plan) : ByteArray := Part.joined p.parts

def perform (p : Plan) (t : Target) (w : World) : Ending × World :=
  match World.pass t p.parts t.sink (w.opened t) with
  | (some e, w) => (.failed (.write e t.obstacle), w)
  | (none, w) =>
    match if p.bytes.isEmpty then none else t.obstacle with
    | some cause => (.failed (.flush cause), w)
    | none => (.listed, w)

end Plan

namespace World

/-- Lists, step by step. No step is taken back when a later one fails. -/
def list (w : World) (o : Options) : Ending × World :=
  match w.directory.read o.file with
  | .error e => (.failed (.read o.file e), w)
  | .ok data =>
    match (Plan.ofFile o data).1 with
    | .error f => (.failed f, w)
    | .ok plan =>
      match o.target w.directory with
      | .error f => (.failed f, w)
      | .ok t => plan.perform t w

def run (understand : List String → Except Halt Options) (w : World) (args : List String) :
    Ending × World :=
  match understand args with
  | .error (.help text) => (.helped, w.passed .output text.toUTF8)
  | .error (.usage message) => (.misused message, w)
  | .ok o => w.list o

def holding (w : World) (t : Target) (b : ByteArray) : World :=
  match t with
  | .output => { w with output := w.output ++ b }
  | .file name => { w with directory := w.directory.put name b }
  | .elsewhere | .blocked _ => w

variable (w : World) (t : Target)

theorem opened_eq_holding : w.opened t = w.holding t .empty := by
  cases t with
  | output =>
    rw [holding, ByteArray.append_empty]
    rfl
  | file name => rfl
  | elsewhere => rfl
  | blocked cause => rfl

theorem passed_holding (a b : ByteArray) : (w.holding t a).passed t b = w.holding t (a ++ b) := by
  cases t with
  | output => simp only [holding, passed, ByteArray.append_assoc]
  | file name => simp only [holding, passed, Directory.get?_put, Directory.put_put, Option.getD_some]
  | elsewhere => rfl
  | blocked cause => rfl

theorem pass_unlimited (l : List Part) (a b : ByteArray) :
    pass t l { bytes := b } (w.holding t a) = (none, w.holding t (a ++ Part.joined l)) := by
  induction l generalizing a b with
  | nil => rw [pass, Part.joined_nil, ByteArray.append_empty]
  | cons p l ih =>
    rw [pass, Printout.write_unlimited, Part.joined_cons, ← ByteArray.append_assoc]
    dsimp only
    rw [passed_holding]
    exact ih _ _

/-- A blocked target changes nothing, however far writing gets. -/
theorem pass_blocked (cause : SystemError) (l : List Part) (s : Sink) :
    (pass (.blocked cause) l s w).2 = w := by
  induction l generalizing s with
  | nil => rfl
  | cons p l ih =>
    rw [pass]
    rcases s.write p.text with ⟨_ | _, next⟩
    · rfl
    · exact ih next

theorem pass_fst (l : List Part) (s : Sink) : (pass t l s w).1 = (Part.write l s).1 := by
  induction l generalizing s w with
  | nil => rfl
  | cons p l ih =>
    rw [pass, Part.write]
    rcases s.write p.text with ⟨_ | _, next⟩
    · rfl
    · exact ih _ next

end World

namespace Plan

variable (p : Plan) (t : Target)

theorem write_fst : (p.write t).1 =
    match (Part.write p.parts t.sink).1 with
    | some e => .error (.write e t.obstacle)
    | none =>
      match if p.bytes.isEmpty then none else t.obstacle with
      | some cause => .error (.flush cause)
      | none => .ok p.bytes := by
  have count := Printout.write_count_eq p.printout p.start p.count t.sink
  have sink := Printout.write_sink_eq p.printout p.start p.count t.sink
  rw [← parts] at count sink
  unfold write
  dsimp only
  rw [count, sink]
  cases stop : (Part.write p.parts t.sink).1 with
  | some e => rfl
  | none =>
    have whole : (Part.write p.parts t.sink).2.bytes = p.bytes := by
      rw [Part.write_whole stop]
      exact ByteArray.empty_append
    dsimp only
    rw [whole]
    cases (if p.bytes.isEmpty then none else t.obstacle) <;> rfl

theorem ending_perform (w : World) : (p.perform t w).1 =
    match (p.write t).1 with
    | .error f => .failed f
    | .ok _ => .listed := by
  have stop := World.pass_fst (w.opened t) t p.parts t.sink
  rw [write_fst, ← stop, perform]
  rcases World.pass t p.parts t.sink (w.opened t) with ⟨_ | e, v⟩
  · dsimp only
    cases (if p.bytes.isEmpty then none else t.obstacle) <;> rfl
  · rfl

variable {t}

theorem write_free (free : t.obstacle = none) : (p.write t).1 = .ok p.bytes := by
  rw [write_fst, Target.sink_of_free free, Part.write_unlimited, free]
  simp only [ite_self]

theorem perform_free (free : t.obstacle = none) (w : World) :
    p.perform t w = (.listed, w.holding t p.bytes) := by
  rw [perform, Target.sink_of_free free, World.opened_eq_holding, World.pass_unlimited,
    ByteArray.empty_append, free]
  simp only [ite_self]
  rfl

/-- A blocked target leaves no trace of what was written to it. -/
theorem perform_blocked (cause : SystemError) (w : World) :
    (p.perform (.blocked cause) w).2 = w := by
  have kept := World.pass_blocked w cause p.parts (Target.blocked cause).sink
  change (World.pass _ _ _ (w.opened (.blocked cause))).2 = w at kept
  rw [perform]
  generalize World.pass _ _ _ (w.opened (.blocked cause)) = r at kept ⊢
  obtain ⟨_ | e, v⟩ := r
  · dsimp only
    cases (if p.bytes.isEmpty then none else (Target.blocked cause).obstacle) <;> exact kept
  · exact kept

theorem perform_eq (t : Target) (d : Directory) :
    p.perform t ⟨d, .empty⟩ =
      match (p.write t).1 with
      | .error f => (.failed f, ⟨d, .empty⟩)
      | .ok bytes => (.listed, ⟨d.save t bytes, if t = .output then bytes else .empty⟩) := by
  cases obstacle : t.obstacle with
  | none =>
    rw [perform_free p obstacle, write_free p obstacle]
    cases t with
    | output => simp only [World.holding, Directory.save, ByteArray.empty_append, ite_true]
    | file name => simp [World.holding, Directory.save]
    | elsewhere => simp [World.holding, Directory.save]
    | blocked cause => cases obstacle
  | some cause =>
    cases t with
    | blocked cause =>
      refine Prod.ext ?_ ?_
      · rw [ending_perform]
        cases (p.write (.blocked cause)).1 <;> rfl
      · rw [perform_blocked]
        cases (p.write (.blocked cause)).1 <;> rfl
    | output | file | elsewhere => cases obstacle

end Plan

def Outcome.world (x : Outcome) : World := ⟨x.directory, x.output⟩

namespace World

variable {w : World} {o : Options}

theorem list_eq (d : Directory) (o : Options) :
    World.list ⟨d, .empty⟩ o = ((Command.list d o).ending, (Command.list d o).world) := by
  unfold World.list Command.list
  dsimp only
  cases d.read o.file with
  | error e => rfl
  | ok data =>
    dsimp only
    rcases Plan.ofFile o data with ⟨f | plan, log⟩
    · rfl
    · dsimp only
      cases o.target d with
      | error f => rfl
      | ok t =>
        dsimp only
        rw [Plan.perform_eq]
        rcases plan.write t with ⟨f | bytes, more⟩ <;> rfl

theorem run_eq (understand : List String → Except Halt Options) (d : Directory)
    (args : List String) : World.run understand ⟨d, .empty⟩ args =
      ((Command.run understand d args).ending, (Command.run understand d args).world) := by
  unfold World.run Command.run
  rcases understand args with (text | message) | o
  · simp only [passed, Outcome.world, ByteArray.empty_append]
  · rfl
  · exact list_eq d o

theorem list_of_ready {data : ByteArray} {plan : Plan} {t : Target}
    (read : w.directory.read o.file = .ok data) (ready : (Plan.ofFile o data).1 = .ok plan)
    (opens : o.target w.directory = .ok t) : w.list o = plan.perform t w := by
  simp only [World.list, read, ready, opens]

/-- All that can go wrong before the target is open goes wrong without effect. -/
theorem list_cases (w : World) (o : Options) :
    (∃ f, w.list o = (.failed f, w)) ∨
    ∃ data plan t, w.directory.read o.file = .ok data ∧ (Plan.ofFile o data).1 = .ok plan ∧
      o.target w.directory = .ok t ∧ w.list o = plan.perform t w := by
  cases read : w.directory.read o.file with
  | error e =>
    refine .inl ⟨.read o.file e, ?_⟩
    simp only [World.list, read]
  | ok data =>
    cases ready : (Plan.ofFile o data).1 with
    | error f =>
      refine .inl ⟨f, ?_⟩
      simp only [World.list, read, ready]
    | ok plan =>
      cases opens : o.target w.directory with
      | error f =>
        refine .inl ⟨f, ?_⟩
        simp only [World.list, read, ready, opens]
      | ok t => exact .inr ⟨data, plan, t, rfl, ready, rfl, list_of_ready read ready opens⟩

/-- Once the target is open, only a blocked one makes a run fail. -/
theorem list_failed (h : (w.list o).1 ≠ .listed) : (w.list o).2 = w := by
  rcases list_cases w o with ⟨f, failed⟩ | ⟨data, plan, t, -, -, -, performed⟩
  · rw [failed]
  · rw [performed] at h ⊢
    cases t with
    | blocked cause => exact plan.perform_blocked cause w
    | output | file | elsewhere => exact absurd (congrArg Prod.fst (plan.perform_free rfl w)) h

theorem run_failed {understand : List String → Except Halt Options} {args : List String}
    (h : (w.run understand args).1.status ≠ 0) : (w.run understand args).2 = w := by
  unfold World.run at h ⊢
  rcases hargs : understand args with (text | message) | o
  · rw [hargs] at h
    exact absurd rfl h
  · rfl
  · rw [hargs] at h
    refine list_failed fun listed => h ?_
    dsimp only
    rw [listed]
    rfl

theorem list_into_file {path name : String} (output : o.output = some path)
    (target : w.directory.target path = .ok (.file name)) (listed : (w.list o).1 = .listed) :
    ∃ bytes, w.list o = (.listed, w.holding (.file name) bytes) ∧
      w.list { o with output := none } = (.listed, w.holding .output bytes) := by
  have file : o.target w.directory = .ok (.file name) := by
    rw [Options.target, output]
    dsimp only
    rw [target]
    rfl
  rcases list_cases w o with ⟨f, failed⟩ | ⟨data, plan, t, read, ready, opens, performed⟩
  · rw [failed] at listed
    cases listed
  · cases file.symm.trans opens
    refine ⟨plan.bytes, performed.trans (plan.perform_free rfl w), ?_⟩
    -- The plan does not depend on the output.
    have shown : w.list { o with output := none } = plan.perform .output w :=
      list_of_ready read ready rfl
    exact shown.trans (plan.perform_free rfl w)

end World

/-! ### Runs -/

/-- One outcome leaves in a file what another one shows, and changes nothing else. -/
structure Redirects (d : Directory) (name : String) (x y : Outcome) : Prop where
  silent : x.output = .empty
  succeeds : y.ending.status = 0
  holds : x.directory.get? name = some y.output
  keeps : ∀ other, other ≠ name → x.directory.get? other = d.get? other

section runs

variable {understand : List String → Except Halt Options}

theorem redirects {d : Directory} {args rest : List String} {o : Options} {path name : String}
    (parsed : understand args = .ok o) (output : o.output = some path)
    (target : d.target path = .ok (.file name))
    (without : understand rest = .ok { o with output := none })
    (success : (run understand d args).ending.status = 0) :
    Redirects d name (run understand d args) (run understand d rest) := by
  obtain ⟨same, listed⟩ := listed_of_status parsed success
  have other : run understand d rest = list d { o with output := none } := by
    rw [run, without]
  obtain ⟨bytes, file, shown⟩ := World.list_into_file (w := ⟨d, .empty⟩) output target
    ((congrArg Prod.fst (World.list_eq d o)).trans listed)
  rw [World.list_eq] at file shown
  obtain ⟨-, file⟩ := Prod.mk.inj file
  obtain ⟨ending, shown⟩ := Prod.mk.inj shown
  obtain ⟨directory, silent⟩ := World.mk.inj file
  obtain ⟨-, shown⟩ := World.mk.inj shown
  rw [ByteArray.empty_append] at shown
  rw [same, other]
  refine ⟨silent, ?_, ?_, ?_⟩
  · rw [ending]
    rfl
  · rw [directory, shown, Directory.get?_put]
  · intro name' h
    rw [directory, Directory.get?_put_of_ne _ _ _ h]

end runs

/-- A run that fails has shown nothing and has changed no file, though none of its steps is taken
back. A run that succeeds with an output has put there what it would have shown without, however the
output was asked for. Where leaving out `-o` and its path drops the output and nothing else, that is
what the run without these shows. -/
theorem run_all_or_nothing (understand : List String → Except Halt Options) (d : Directory)
    (args : List String) :
    World.run understand ⟨d, .empty⟩ args =
      ((run understand d args).ending, (run understand d args).world) ∧
    ((run understand d args).ending.status ≠ 0 →
      (run understand d args).output = .empty ∧ (run understand d args).directory = d) ∧
    ((run understand d args).ending.status = 0 →
      (∀ o rest, understand args = .ok o → o.output = some "out.txt" →
        understand rest = .ok { o with output := none } →
        Redirects d "out.txt" (run understand d args) (run understand d rest)) ∧
      (DropsOutput understand →
        ∀ before after, args = before ++ "-o" :: "out.txt" :: after →
          (∀ text, understand args ≠ .error (.help text)) →
          Redirects d "out.txt" (run understand d args) (run understand d (before ++ after)))) := by
  have steps := World.run_eq understand d args
  refine ⟨steps, ?_, ?_⟩
  · intro failed
    have stopped : (World.run understand ⟨d, .empty⟩ args).1.status ≠ 0 := by
      rw [steps]
      exact failed
    have kept := World.run_failed stopped
    rw [steps] at kept
    obtain ⟨directory, output⟩ := World.mk.inj kept
    exact ⟨output, directory⟩
  · intro success
    refine ⟨?_, ?_⟩
    · intro o rest parsed output without
      exact redirects parsed output d.target_out without success
    · rintro drops before after rfl unhelped
      cases parsed : understand (before ++ "-o" :: "out.txt" :: after) with
      | error h =>
        cases h with
        | help text => exact absurd parsed (unhelped text)
        | usage message =>
          rw [run, parsed] at success
          simp [Ending.status] at success
      | ok o =>
        have plain : Scan.IsPlain "out.txt" := by
          intro c l same
          cases same
        obtain ⟨output, without⟩ := drops "out.txt" before after o plain parsed
        exact redirects parsed output d.target_out without success

def occupied : Directory := overlapping.put "out.txt" "old".toUTF8

def runOccupied (args : List String) : Outcome := run Options.ofArguments occupied args

/-- A start that is not aligned leaves the old file as it is; with a proper one it is replaced. -/
theorem run_all_or_nothing_occupied :
    (runOccupied ["-o", "out.txt", "--start", "2", "in.elf"]).ending.status = 1 ∧
    (runOccupied ["-o", "out.txt", "--start", "2", "in.elf"]).directory = occupied ∧
    (runOccupied ["-o", "out.txt", "in.elf"]).ending.status = 0 ∧
    Redirects occupied "out.txt" (runOccupied ["-o", "out.txt", "in.elf"])
      (runOccupied ["in.elf"]) ∧
    Redirects occupied "out.txt" (runOccupied ["-voout.txt", "in.elf"])
      (runOccupied ["-v", "in.elf"]) := by
  have fails : (runOccupied ["-o", "out.txt", "--start", "2", "in.elf"]).ending.status = 1 := by
    decide +kernel
  have lists : (runOccupied ["-o", "out.txt", "in.elf"]).ending.status = 0 := by decide +kernel
  have parsed : Options.ofArguments ["-o", "out.txt", "in.elf"] =
      .ok { file := "in.elf", output := "out.txt" } := by decide +kernel
  have unhelped (text : String) :
      Options.ofArguments ["-o", "out.txt", "in.elf"] ≠ .error (.help text) := by
    rw [parsed]
    exact nofun
  obtain ⟨-, nothing, -⟩ := run_all_or_nothing Options.ofArguments occupied
    ["-o", "out.txt", "--start", "2", "in.elf"]
  obtain ⟨-, -, all⟩ :=
    run_all_or_nothing Options.ofArguments occupied ["-o", "out.txt", "in.elf"]
  obtain ⟨-, -, attached⟩ :=
    run_all_or_nothing Options.ofArguments occupied ["-voout.txt", "in.elf"]
  refine ⟨fails, (nothing (by unfold runOccupied at fails; rw [fails]; decide)).2, lists, ?_, ?_⟩
  · exact (all lists).2 Options.ofArguments_output [] ["in.elf"] rfl unhelped
  · exact (attached (by decide +kernel)).1 { file := "in.elf", output := "out.txt", verbose := true }
      ["-v", "in.elf"] (by decide +kernel) rfl (by decide +kernel)

end Disarm.Command
