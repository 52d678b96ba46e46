import Disarm.Command.Usage
/-!
Reading the argument list. A parameter's value is attached to it or follows as an argument of its
own; in the second case the parameter waits, and it is settled when the next option, the file or the
end of the arguments comes. An argument that is not understood is reported at once, before anything
that still waits.
-/

namespace Disarm.Command

/-- An option by its name. -/
inductive Name where
  | parameter (p : Parameter)
  | switch (s : Switch)
deriving DecidableEq, Repr

namespace Name

def ofLong : String → Option Name
  | "start" => some (.parameter .start)
  | "symbol" => some (.parameter .symbol)
  | "count" => some (.parameter .count)
  | "output" => some (.parameter .output)
  | "raw" => some (.switch .raw)
  | "no-symbols" => some (.switch .noSymbols)
  | "verbose" => some (.switch .verbose)
  | "help" => some (.switch .help)
  | _ => none

def ofShort : Char → Option Name
  | 's' => some (.parameter .symbol)
  | 'c' => some (.parameter .count)
  | 'o' => some (.parameter .output)
  | 'v' => some (.switch .verbose)
  | 'h' => some (.switch .help)
  | _ => none

end Name

structure Values where
  file : Option String := none
  start : Option Addr := none
  symbol : Option String := none
  count : Option Nat := none
  output : Option String := none
  switches : List Switch := []
deriving DecidableEq, Repr

namespace Values

def has (v : Values) : Parameter → Bool
  | .file => v.file.isSome
  | .start => v.start.isSome
  | .symbol => v.symbol.isSome
  | .count => v.count.isSome
  | .output => v.output.isSome

def path (p : Parameter) (text : String) : Except UsageError String :=
  if text = "" then .error (.missingValue p) else .ok text

def numeral {α : Type} (p : Parameter) (text : String) (r : Except NumeralError α) :
    Except UsageError α :=
  match r with
  | .ok a => .ok a
  | .error e => .error (.invalidValue text p e)

/-- Settles a parameter, which must not have a value yet. -/
def set (v : Values) (p : Parameter) (text : String) : Except UsageError Values :=
  if v.has p then .error (.repeatedParameter p)
  else
    match p with
    | .file => return { v with file := ← path .file text }
    | .start => return { v with start := ← numeral .start text (Numeral.address text) }
    | .symbol => return { v with symbol := text }
    | .count => return { v with count := ← numeral .count text (Numeral.count text) }
    | .output => return { v with output := ← path .output text }

/-- The options that the values make, once all arguments are read. -/
def options (v : Values) : Except UsageError Options :=
  match v.file with
  | none => .error .missingFile
  | some file =>
    .ok {
      file
      start := v.start
      symbol := v.symbol
      count := v.count.getD 64
      raw := .raw ∈ v.switches
      noSymbols := .noSymbols ∈ v.switches
      output := v.output
      verbose := .verbose ∈ v.switches }

end Values

/-- What is known after some of the arguments. A parameter waits until it is settled, with its value
if that has come. -/
structure Scan where
  values : Values := {}
  waiting : Option (Parameter × Option String) := none
  filePlaced : Bool := false
deriving DecidableEq, Repr

namespace Scan

def settle (s : Scan) : Except Refusal Scan :=
  match s.waiting with
  | none => .ok s
  | some (p, none) => .error (.misuse (.missingValue p))
  | some (p, some text) =>
    match s.values.set p text with
    | .ok values => .ok { s with values, waiting := none }
    | .error e => .error (.misuse e)

def attach (s : Scan) (p : Parameter) (text : String) : Except Refusal Scan := do
  let s ← s.settle
  { s with waiting := some (p, some text) }.settle

def await (s : Scan) (p : Parameter) : Except Refusal Scan :=
  return { ← s.settle with waiting := some (p, none) }

def turnOn (s : Scan) (w : Switch) : Except Refusal Scan := do
  let s ← s.settle
  if w = .help then .error .help
  else if w ∈ s.values.switches then .error (.misuse (.repeatedSwitch w))
  else return { s with values := { s.values with switches := w :: s.values.switches } }

/-- An option by its long name, with what follows the first equals sign as its value. -/
def long (s : Scan) (name : String) (value : Option String) : Except Refusal Scan :=
  match Name.ofLong name, value with
  | none, _ => .error (.misuse (.unexpected ("--" ++ name)))
  | some (.parameter p), some text => s.attach p text
  | some (.parameter p), none => s.await p
  | some (.switch w), some text => .error (.misuse (.unexpectedValue text w))
  | some (.switch w), none => s.turnOn w

/-- Options by their short names, one after the other. A parameter takes the rest as its value,
without a leading equals sign. -/
def cluster (s : Scan) : List Char → Except Refusal Scan
  | [] => .ok s
  | c :: l =>
    match Name.ofShort c with
    | none => .error (.misuse (.unexpected (String.ofList ['-', c])))
    | some (.switch w) => do cluster (← s.turnOn w) l
    | some (.parameter p) =>
      match l with
      | [] => s.await p
      | '=' :: text => s.attach p (String.ofList text)
      | text => s.attach p (String.ofList text)

/-- An argument in the place of the file. There is one such place. -/
def positional (s : Scan) (arg : String) : Except Refusal Scan :=
  if s.filePlaced then .error (.misuse (.unexpected arg))
  else return { ← s.settle with waiting := some (.file, some arg), filePlaced := true }

/-- An argument that names no option: the value that is waited for, or else the file. -/
def plain (s : Scan) (arg : String) : Except Refusal Scan :=
  match s.waiting with
  | some (p, none) => .ok { s with waiting := some (p, some arg) }
  | _ => s.positional arg

def argument (s : Scan) (arg : String) : Except Refusal Scan :=
  match arg.toList with
  | '-' :: '-' :: l =>
    let value := match l.dropWhile (· ≠ '=') with
      | [] => none
      | _ :: text => some (String.ofList text)
    s.long (String.ofList (l.takeWhile (· ≠ '='))) value
  | '-' :: c :: l => s.cluster (c :: l)
  | _ => s.plain arg

/-- All arguments. After two dashes on their own no options are recognised. -/
def arguments : Bool → List String → Scan → Except Refusal Scan
  | _, [], s => s.settle
  | true, arg :: l, s => do arguments true l (← s.positional arg)
  | false, arg :: l, s => do
    if arg = "--" then arguments true l s else arguments false l (← s.argument arg)

end Scan

namespace Options

/-- The options of an argument list, or the first thing that is wrong with it. -/
def scan (args : List String) : Except Refusal Options := do
  let s ← Scan.arguments false args {}
  match s.values.options with
  | .ok o => return o
  | .error e => .error (.misuse e)

def ofArguments (args : List String) : Except Halt Options := (scan args).mapError Refusal.halt

end Options

end Disarm.Command
