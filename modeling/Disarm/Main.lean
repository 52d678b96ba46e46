import Disarm.Command.Arguments
import Disarm.Command.Run
/-!
The program: lists the code of an executable file.
-/

namespace Disarm.Command

def levelName : LogLevel → String
  | .trace => "TRACE"
  | .debug => "DEBUG"
  | .info => "INFO"
  | .warn => "WARN"

def report (o : Options) (log : Log) : IO Unit :=
  for e in log.filter o.shows do
    IO.eprintln (levelName e.level ++ " " ++ e.message)

def systemError (e : IO.Error) : SystemError :=
  match e with
  | .noFileOrDirectory _ code text => ⟨text, code.toNat⟩
  | .inappropriateType _ code text => ⟨text, code.toNat⟩
  | .permissionDenied _ code text => ⟨text, code.toNat⟩
  | .invalidArgument _ code text => ⟨text, code.toNat⟩
  | .resourceExhausted _ code text => ⟨text, code.toNat⟩
  | .otherError code text => ⟨text, code.toNat⟩
  | e => ⟨toString e, 0⟩

def finish (ending : Ending) : IO UInt32 := do
  IO.eprintln ending.message
  return ending.status

/-- The target that a stream turns out to be when bytes are passed on to it. -/
def passOn (bytes : ByteArray) (out : IO.FS.Stream) : IO Target := do
  match ← (do out.write bytes; out.flush : IO Unit).toBaseIO with
  | .ok () => return .output
  | .error e => return .blocked (systemError e)

def writeTo (o : Options) (plan : Plan) (out : IO.FS.Stream) : IO UInt32 := do
  let target ← match (plan.write .output).1 with
    | .ok bytes => passOn bytes out
    | .error _ => pure .output
  let (written, log) := plan.write target
  report o log
  match written with
  | .error f => finish (.failed f)
  | .ok _ => return Ending.listed.status

/-- The contents of a file. The file is opened at once, so that the cause of a failure is that of
opening or reading it. -/
def contents (path : String) : IO ByteArray := do
  (← IO.FS.Handle.mk path .read).readBinToEnd

def listFile (o : Options) : IO UInt32 := do
  match ← (contents o.file).toBaseIO with
  | .error e => finish (.failed (.read o.file (systemError e)))
  | .ok data =>
    let (plan, log) := Plan.ofFile o data
    report o log
    match plan with
    | .error f => finish (.failed f)
    | .ok plan =>
      match o.output with
      | none => writeTo o plan (← IO.getStdout)
      | some path =>
        match ← (IO.FS.Handle.mk path .write).toBaseIO with
        | .error e => finish (.failed (.create path (systemError e)))
        | .ok h => writeTo o plan (IO.FS.Stream.ofHandle h)

end Disarm.Command

/-- Lists the code of the file named by the arguments. -/
def main (args : List String) : IO UInt32 :=
  match Disarm.Command.Options.ofArguments args with
  | .error (.help text) => do
    IO.print text
    return Disarm.Command.Ending.helped.status
  | .error (.usage message) => Disarm.Command.finish (.misused message)
  | .ok o => Disarm.Command.listFile o
