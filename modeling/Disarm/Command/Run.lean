import Disarm.Command.Directory
import Disarm.Command.Options
import Disarm.Image.Layout
import Disarm.Printout
import Disarm.Start
/-!
A run of the command line. The file is read and checked, the start is found, and only then is the
output opened. A run that fails has written nothing: after that it can only fail on a target that takes
nothing. Files and streams are values here; the program itself does the same steps on real ones.
-/

namespace Disarm.Command

/-- Why a run fails after its arguments were understood. A listing cannot be written for a cause of
the system, or because its sink has a limit. -/
inductive Failure where
  | read (path : String) (cause : SystemError)
  | format (cause : Elf.Error)
  | machine (n : Nat)
  | layout (e : LayoutError)
  | start (e : StartError)
  | create (path : String) (cause : SystemError)
  | write (e : WriteError) (cause : Option SystemError)
  | flush (cause : SystemError)
deriving DecidableEq, Repr

namespace Failure

def reason (cause : Option SystemError) : String := cause.elim WriteError.full SystemError.message

def summary : Failure → String
  | read path _ => "failed to read " ++ path
  | format _ => "ELF parse error"
  | machine n => "unsupported ELF e_machine " ++ toString n ++ ", expected ARM"
  | layout e => e.message
  | start e => e.message
  | create path _ => "cannot create " ++ path
  | write e cause => e.context.getD (reason cause)
  | flush _ => "flush failed"

def cause : Failure → Option String
  | read _ e | create _ e | flush e => some e.message
  | format e => some e.message
  | write e cause => e.context.map fun _ => reason cause
  | machine _ | layout _ | start _ => none

/-- The text of a failure, its cause in a paragraph of its own. -/
def message (f : Failure) : String :=
  "Error: " ++ f.summary ++
    match f.cause with
    | none => ""
    | some c => "\n\nCaused by:\n    " ++ c

end Failure

/-- The program of a file and its code as an image. -/
def load (data : ByteArray) : Except Failure (Elf.File × Image) :=
  match Elf.File.ofBytes data with
  | .error e => .error (.format e)
  | .ok f =>
    if f.machine ≠ Elf.armMachine then .error (.machine f.machine)
    else
      match Image.ofSegments f.segments with
      | .error e => .error (.layout e)
      | .ok i => .ok (f, i)

namespace Target

def maxWaiting : Nat := 8192

/-- The sink in front of a target. If the target takes nothing, the sink has room for the bytes that
wait, and no more. -/
def sink (t : Target) : Sink := { room := t.obstacle.map fun _ => maxWaiting }

end Target

structure Plan where
  printout : Printout
  start : Addr
  count : Nat

namespace Plan

/-- The plan for the contents of a file, and the events on the way. -/
def ofFile (o : Options) (data : ByteArray) : Except Failure Plan × Log :=
  match load data with
  | .error e => (.error e, #[])
  | .ok (f, image) =>
    let log : Log := #[image.laidOut f.segments]
    match Start.locate f.entry f.symbols o.start o.symbol with
    | .error e => (.error (.start e), log)
    | .ok start =>
      let symbols := SymbolTable.ofElf f.symbols
      (.ok ⟨⟨image, if o.noSymbols then none else some symbols, o.raw⟩, start, o.count⟩,
        log.push (.starting symbols.size start))

/-- Writes the whole listing to a target: its bytes, and the events on the way. Bytes that still wait
at the end are passed on then. -/
def write (p : Plan) (t : Target) : Except Failure ByteArray × Log :=
  let w := p.printout.write p.start p.count t.sink
  match w.count with
  | .error e => (.error (.write e t.obstacle), w.log)
  | .ok n =>
    match if w.sink.bytes.isEmpty then none else t.obstacle with
    | some cause => (.error (.flush cause), w.log)
    | none => (.ok w.sink.bytes, w.log.push (.finished n))

end Plan

/-- The events that are shown: information and warnings, and details if they are asked for. -/
def Options.shows (o : Options) (e : LogEvent) : Bool :=
  match e.level with
  | .trace => false
  | .debug => o.verbose
  | .info | .warn => true

inductive Ending where
  | helped
  | listed
  | misused (message : String)
  | failed (f : Failure)
deriving DecidableEq, Repr

namespace Ending

def status : Ending → UInt32
  | helped | listed => 0
  | failed _ => 1
  | misused _ => 2

def message : Ending → String
  | helped | listed => ""
  | misused text => text
  | failed f => f.message

end Ending

structure Outcome where
  ending : Ending
  output : ByteArray := .empty
  directory : Directory
  log : Log := #[]

def Options.target (o : Options) (d : Directory) : Except Failure Target :=
  match o.output with
  | none => .ok .output
  | some path => (d.target path).mapError (.create path)

def list (d : Directory) (o : Options) : Outcome :=
  let fail (f : Failure) (log : Log) : Outcome := ⟨.failed f, .empty, d, log.filter o.shows⟩
  match d.read o.file with
  | .error e => fail (.read o.file e) #[]
  | .ok data =>
    match Plan.ofFile o data with
    | (.error f, log) => fail f log
    | (.ok plan, log) =>
      match o.target d with
      | .error f => fail f log
      | .ok target =>
        match plan.write target with
        | (.error f, more) => fail f (log ++ more)
        | (.ok bytes, more) =>
          { ending := .listed
            output := if target = .output then bytes else .empty
            directory := d.save target bytes
            log := (log ++ more).filter o.shows }

/-- A run in a working directory. What the arguments ask for is told by `understand`. -/
def run (understand : List String → Except Halt Options) (d : Directory) (args : List String) :
    Outcome :=
  match understand args with
  | .error (.help text) => ⟨.helped, text.toUTF8, d, #[]⟩
  | .error (.usage message) => ⟨.misused message, .empty, d, #[]⟩
  | .ok o => list d o

end Disarm.Command
