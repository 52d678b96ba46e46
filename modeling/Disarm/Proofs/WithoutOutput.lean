import Disarm.Command.Arguments
/-!
Argument lists with and without an output. Main statement: an option `-o` with its path in an argument
list that is understood adds the output to what the rest of the list asks for, and nothing else.
-/

namespace Disarm.Command

variable {path : String}

namespace Values

variable {v w : Values} {p : Parameter} {text : String}

def withOutput (v : Values) (path : String) : Values := { v with output := some path }

theorem has_withOutput (other : p ≠ .output) : (v.withOutput path).has p = v.has p := by
  cases p with
  | output => exact absurd rfl other
  | file | start | symbol | count => rfl

theorem set_withOutput_output :
    (v.withOutput path).set .output text = .error (.repeatedParameter .output) := rfl

theorem set_withOutput (other : p ≠ .output) :
    (v.withOutput path).set p text = (v.set p text).map (·.withOutput path) := by
  unfold set
  rw [has_withOutput other]
  by_cases taken : v.has p
  · rw [if_pos taken, if_pos taken]
    rfl
  · rw [if_neg taken, if_neg taken]
    cases p with
    | file => cases Values.path .file text <;> rfl
    | start => cases numeral .start text (Numeral.address text) <;> rfl
    | symbol => rfl
    | count => cases numeral .count text (Numeral.count text) <;> rfl
    | output => exact absurd rfl other

theorem output_of_set (other : p ≠ .output) (h : v.set p text = .ok w) : w.output = v.output := by
  unfold set at h
  split at h
  · cases h
  · cases p with
    | file =>
      generalize Values.path .file text = r at h
      cases r <;> cases h
      rfl
    | start =>
      generalize numeral .start text (Numeral.address text) = r at h
      cases r <;> cases h
      rfl
    | symbol =>
      cases h
      rfl
    | count =>
      generalize numeral .count text (Numeral.count text) = r at h
      cases r <;> cases h
      rfl
    | output => exact absurd rfl other

theorem set_output_eq_ok (h : v.set .output path = .ok w) :
    v.output = none ∧ w = v.withOutput path := by
  unfold set Values.path at h
  split at h
  · cases h
  · next free =>
    dsimp only at h
    split at h
    · cases h
    · cases h
      exact ⟨Option.not_isSome_iff_eq_none.1 free, rfl⟩

theorem options_withOutput :
    (v.withOutput path).options = v.options.map ({ · with output := some path }) := by
  unfold options withOutput
  dsimp only
  cases v.file <;> rfl

theorem output_of_options {o : Options} (h : v.options = .ok o) : o.output = v.output := by
  unfold options at h
  split at h <;> cases h
  rfl

end Values

namespace Scan

variable {s t u : Scan}

def withOutput (s : Scan) (path : String) : Scan := { s with values := s.values.withOutput path }

/-- The second of two scans is the first with the output settled as well. -/
def Settled (path : String) (s u : Scan) : Prop :=
  s.values.output = none ∧ u = s.withOutput path

/-- Two scans at the same argument, the second of which has met the output on its way. -/
inductive Beside (path : String) : Scan → Scan → Prop where
  | settled {s u : Scan} (h : Settled path s u) : Beside path s u
  | last {s t : Scan} (h : s.settle = .ok t) :
    Beside path s { t with waiting := some (.output, some path) }

/-- If the second of two steps comes through, so does the first one, and their results are related. -/
def Follows (R : Scan → Scan → Prop) (x y : Except Refusal Scan) : Prop :=
  ∀ u, y = .ok u → ∃ s, x = .ok s ∧ R s u

namespace Follows

variable {R S : Scan → Scan → Prop} {x y : Except Refusal Scan} {f g : Scan → Except Refusal Scan}

theorem ok (h : R s u) : Follows R (.ok s) (.ok u) := by
  intro v hv
  cases hv
  exact ⟨s, rfl, h⟩

theorem error {e : Refusal} : Follows R x (.error e) := nofun

theorem mono (h : Follows R x y) (imp : ∀ s u, R s u → S s u) : Follows S x y := by
  intro u hu
  obtain ⟨s, hs, related⟩ := h u hu
  exact ⟨s, hs, imp s u related⟩

theorem bind (h : Follows R x y) (next : ∀ s u, R s u → Follows S (f s) (g u)) :
    Follows S (x >>= f) (y >>= g) := by
  cases y with
  | error e => exact error
  | ok u =>
    obtain ⟨s, rfl, related⟩ := h u rfl
    exact next s u related

end Follows

/-! ### Settling -/

theorem settle_of_none (h : s.waiting = none) : s.settle = .ok s := by
  simp only [settle, h]

theorem settle_of_missing {p : Parameter} (h : s.waiting = some (p, none)) :
    s.settle = .error (.misuse (.missingValue p)) := by
  simp only [settle, h]

theorem settle_of_set {p : Parameter} {text : String} {v : Values}
    (h : s.waiting = some (p, some text)) (set : s.values.set p text = .ok v) :
    s.settle = .ok { s with values := v, waiting := none } := by
  simp only [settle, h, set]

theorem settle_of_unset {p : Parameter} {text : String} {e : UsageError}
    (h : s.waiting = some (p, some text)) (unset : s.values.set p text = .error e) :
    s.settle = .error (.misuse e) := by
  simp only [settle, h, unset]

theorem settle_eq_ok (h : s.settle = .ok t) :
    t.waiting = none ∧ t.filePlaced = s.filePlaced ∧ ∀ p, s.waiting ≠ some (p, none) := by
  rcases waits : s.waiting with _ | ⟨p, _ | text⟩
  · rw [settle_of_none waits] at h
    cases h
    exact ⟨waits, rfl, nofun⟩
  · rw [settle_of_missing waits] at h
    cases h
  · cases set : s.values.set p text with
    | error e =>
      rw [settle_of_unset waits set] at h
      cases h
    | ok v =>
      rw [settle_of_set waits set] at h
      cases h
      exact ⟨rfl, rfl, nofun⟩

theorem Settled.settle (h : Settled path s u) : Follows (Settled path) s.settle u.settle := by
  obtain ⟨free, rfl⟩ := h
  have same : (s.withOutput path).waiting = s.waiting := rfl
  rcases waits : s.waiting with _ | ⟨p, _ | text⟩
  · rw [settle_of_none waits, settle_of_none (same.trans waits)]
    exact .ok ⟨free, rfl⟩
  · rw [settle_of_missing (same.trans waits)]
    exact .error
  · by_cases output : p = .output
    -- The output cannot be settled a second time.
    · subst output
      rw [settle_of_unset (same.trans waits) Values.set_withOutput_output]
      exact .error
    · have both : (s.withOutput path).values.set p text =
          (s.values.set p text).map (·.withOutput path) := Values.set_withOutput output
      cases set : s.values.set p text with
      | error e =>
        rw [set] at both
        rw [settle_of_unset (same.trans waits) both]
        exact .error
      | ok v =>
        rw [set] at both
        rw [settle_of_set waits set, settle_of_set (same.trans waits) both]
        exact .ok ⟨(Values.output_of_set output set).trans free, rfl⟩

theorem Beside.settle (h : Beside path s u) : Follows (Settled path) s.settle u.settle := by
  cases h with
  | settled h => exact h.settle
  | @last t h =>
    have waits : ({ t with waiting := some (.output, some path) } : Scan).waiting =
        some (.output, some path) := rfl
    rw [h]
    cases set : t.values.set .output path with
    | error e =>
      rw [settle_of_unset waits set]
      exact .error
    | ok w =>
      rw [settle_of_set waits set]
      obtain ⟨free, rfl⟩ := Values.set_output_eq_ok set
      obtain ⟨none, -, -⟩ := settle_eq_ok h
      refine .ok ⟨free, ?_⟩
      rw [withOutput, none]

theorem Beside.filePlaced (h : Beside path s u) : u.filePlaced = s.filePlaced := by
  cases h with
  | settled h =>
    obtain ⟨-, rfl⟩ := h
    rfl
  | last h => exact (settle_eq_ok h).2.1

/-! ### Arguments -/

theorem Beside.attach (h : Beside path s u) (p : Parameter) (text : String) :
    Follows (Beside path) (s.attach p text) (u.attach p text) := by
  refine h.settle.bind fun s u settled => ?_
  obtain ⟨free, rfl⟩ := settled
  have waits : Settled path { s with waiting := some (p, some text) }
      { s.withOutput path with waiting := some (p, some text) } := ⟨free, rfl⟩
  exact waits.settle.mono fun _ _ => .settled

theorem Beside.await (h : Beside path s u) (p : Parameter) :
    Follows (Beside path) (s.await p) (u.await p) := by
  refine h.settle.bind fun s u settled => ?_
  obtain ⟨free, rfl⟩ := settled
  exact .ok (.settled ⟨free, rfl⟩)

theorem Beside.turnOn (h : Beside path s u) (w : Switch) :
    Follows (Beside path) (s.turnOn w) (u.turnOn w) := by
  refine h.settle.bind fun s u settled => ?_
  obtain ⟨free, rfl⟩ := settled
  dsimp only
  change Follows _ _ (if w = .help then _ else if w ∈ s.values.switches then _ else _)
  split
  · exact .error
  · split
    · exact .error
    · exact .ok (.settled ⟨free, rfl⟩)

theorem Beside.long (h : Beside path s u) (name : String) (value : Option String) :
    Follows (Beside path) (s.long name value) (u.long name value) := by
  unfold Scan.long
  rcases Name.ofLong name with _ | p | w
  · exact .error
  · cases value with
    | none => exact h.await p
    | some text => exact h.attach p text
  · cases value with
    | none => exact h.turnOn w
    | some text => exact .error

theorem Beside.cluster (h : Beside path s u) (l : List Char) :
    Follows (Beside path) (s.cluster l) (u.cluster l) := by
  induction l generalizing s u with
  | nil => exact .ok h
  | cons c l ih =>
    unfold Scan.cluster
    rcases Name.ofShort c with _ | p | w
    · exact .error
    · dsimp only
      split
      · exact h.await p
      · exact h.attach p _
      · exact h.attach p _
    · exact (h.turnOn w).bind fun _ _ h => ih h

theorem Beside.positional (h : Beside path s u) (arg : String) :
    Follows (Beside path) (s.positional arg) (u.positional arg) := by
  unfold Scan.positional
  rw [h.filePlaced]
  split
  · exact .error
  · refine h.settle.bind fun s u settled => ?_
    obtain ⟨free, rfl⟩ := settled
    exact .ok (.settled ⟨free, rfl⟩)

theorem positional_eq_ok {arg : String} (h : s.positional arg = .ok t) : t.filePlaced = true := by
  unfold positional at h
  split at h
  · cases h
  · cases settle : s.settle with
    | error e =>
      rw [settle] at h
      cases h
    | ok v =>
      rw [settle] at h
      cases h
      rfl

theorem positional_of_filePlaced (h : s.filePlaced = true) (arg : String) :
    s.positional arg = .error (.misuse (.unexpected arg)) := if_pos h

theorem plain_of_ready (ready : ∀ p, s.waiting ≠ some (p, none)) (arg : String) :
    s.plain arg = s.positional arg := by
  unfold plain
  split
  · next waits => exact absurd waits (ready _)
  · rfl

theorem Beside.plain (h : Beside path s u) (arg : String) :
    Follows (Beside path) (s.plain arg) (u.plain arg) := by
  have positional := h.positional arg
  cases h with
  | settled h =>
    obtain ⟨free, rfl⟩ := h
    have same : (s.withOutput path).waiting = s.waiting := rfl
    by_cases missing : ∃ p, s.waiting = some (p, none)
    · obtain ⟨p, waits⟩ := missing
      unfold Scan.plain
      rw [same, waits]
      exact .ok (.settled ⟨free, rfl⟩)
    · have ready := not_exists.1 missing
      rw [plain_of_ready ready, plain_of_ready (s := s.withOutput path) ready]
      exact positional
  | last h =>
    have ready : ∀ p, some (Parameter.output, some path) ≠ some (p, none) := by
      intro p same
      cases same
    rw [plain_of_ready (settle_eq_ok h).2.2, plain_of_ready ready]
    exact positional

theorem Beside.argument (h : Beside path s u) (arg : String) :
    Follows (Beside path) (s.argument arg) (u.argument arg) := by
  unfold Scan.argument
  split
  · exact h.long _ _
  · exact h.cluster _
  · exact h.plain arg

/-- The rest of the arguments, once the output has come. -/
theorem Beside.arguments (h : Beside path s u) (ended : Bool) (l : List String) :
    Follows (Settled path) (s.arguments ended l) (u.arguments ended l) := by
  induction l generalizing ended s u with
  | nil => cases ended <;> exact h.settle
  | cons arg l ih =>
    cases ended with
    | true => exact (h.positional arg).bind fun _ _ h => ih h true
    | false =>
      unfold Scan.arguments
      split
      · exact ih h true
      · exact (h.argument arg).bind fun _ _ h => ih h false

theorem Follows.refl (x : Except Refusal Scan) : Follows Eq x x := fun u h => ⟨u, h, rfl⟩

/-- A path that is told from an option. -/
def IsPlain (path : String) : Prop := ∀ c l, path.toList ≠ '-' :: c :: l

theorem argument_of_isPlain (h : IsPlain path) : s.argument path = s.plain path := by
  unfold argument
  split
  · next l => exact absurd l (h _ _)
  · next l => exact absurd l (h _ _)
  · rfl

theorem arguments_output (h : IsPlain path) (l : List String) :
    s.arguments false ("-o" :: path :: l) =
      s.settle.bind fun t => arguments false l { t with waiting := some (.output, some path) } := by
  have dashes : path ≠ "--" := by
    rintro rfl
    exact h '-' [] (by decide)
  have o : s.argument "-o" = s.await .output := rfl
  rw [arguments, if_neg (by decide), o, await]
  cases s.settle with
  | error e => rfl
  | ok t =>
    change arguments false (path :: l) _ = _
    rw [arguments, if_neg dashes, argument_of_isPlain h]
    rfl

theorem follows_output (h : IsPlain path) (ended : Bool) (before after : List String) :
    Follows (Settled path) (s.arguments ended (before ++ after))
      (s.arguments ended (before ++ "-o" :: path :: after)) := by
  induction before generalizing ended s with
  | nil =>
    cases ended with
    | true =>
      -- No options are recognised here, and there is no room for two files.
      change Follows _ _ (s.positional "-o" >>= arguments true (path :: after))
      cases placed : s.positional "-o" with
      | error e => exact .error
      | ok t =>
        change Follows _ _ (t.positional path >>= arguments true after)
        rw [positional_of_filePlaced (positional_eq_ok placed)]
        exact .error
    | false =>
      rw [List.nil_append, List.nil_append, arguments_output h]
      cases settle : s.settle with
      | error e => exact .error
      | ok t => exact (Beside.last settle).arguments false after
  | cons arg before ih =>
    cases ended with
    | true => exact (Follows.refl (s.positional arg)).bind fun _ _ same => same ▸ ih true
    | false =>
      rw [List.cons_append, List.cons_append, arguments, arguments]
      split
      · exact ih true
      · exact (Follows.refl (s.argument arg)).bind fun _ _ same => same ▸ ih false

end Scan

namespace Options

theorem scan_of_read {args : List String} {s : Scan} (read : Scan.arguments false args {} = .ok s) :
    scan args = s.values.options.mapError .misuse := by
  unfold scan
  rw [read]
  cases options : s.values.options with
  | error e =>
    simp only [bind, Except.bind, options]
    rfl
  | ok o =>
    simp only [bind, Except.bind, options]
    rfl

theorem scan_eq_ok {args : List String} {o : Options} (h : scan args = .ok o) :
    ∃ s, Scan.arguments false args {} = .ok s ∧ s.values.options = .ok o := by
  cases read : Scan.arguments false args {} with
  | error e =>
    unfold scan at h
    rw [read] at h
    cases h
  | ok s =>
    rw [scan_of_read read] at h
    refine ⟨s, rfl, ?_⟩
    revert h
    cases s.values.options with
    | error e => nofun
    | ok q => exact fun same => congrArg Except.ok (Except.ok.inj same)

theorem ofArguments_eq_ok_iff {args : List String} {o : Options} :
    ofArguments args = .ok o ↔ scan args = .ok o := by
  unfold ofArguments
  cases scan args with
  | error e => exact iff_of_false nofun nofun
  | ok q =>
    constructor
    · exact fun same => congrArg Except.ok (Except.ok.inj same)
    · exact fun same => congrArg Except.ok (Except.ok.inj same)

end Options

/-- What is asked for with an output is what the other arguments ask for, but for the output. -/
def DropsOutput (understand : List String → Except Halt Options) : Prop :=
  ∀ (path : String) (before after : List String) (o : Options), Scan.IsPlain path →
    understand (before ++ "-o" :: path :: after) = .ok o →
      o.output = some path ∧ understand (before ++ after) = .ok { o with output := none }

theorem Options.ofArguments_output : DropsOutput ofArguments := by
  intro path before after o plain h
  obtain ⟨u, read, options⟩ := scan_eq_ok (ofArguments_eq_ok_iff.1 h)
  obtain ⟨s, rest, free, rfl⟩ := Scan.follows_output plain false before after u read
  change (s.values.withOutput path).options = .ok o at options
  rw [Values.options_withOutput] at options
  rw [ofArguments_eq_ok_iff, scan_of_read rest]
  cases others : s.values.options with
  | error e =>
    rw [others] at options
    cases options
  | ok q =>
    rw [others] at options
    cases options
    have none : q.output = none := (Values.output_of_options others).trans free
    refine ⟨rfl, ?_⟩
    rw [← none]
    rfl

end Disarm.Command
