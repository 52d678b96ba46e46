import Disarm.Command.Options
import Disarm.Text.Numeral
import Disarm.Text.Terminal
/-!
The options by name, and the errors of asking wrongly. An error shows the argument at fault without the
terminal control it holds.
-/

namespace Disarm.Command

/-- A parameter that takes a value. -/
inductive Parameter where
  | file
  | start
  | symbol
  | count
  | output
deriving DecidableEq, Repr

def Parameter.shown : Parameter → String
  | .file => "<ELF>"
  | .start => "--start <START>"
  | .symbol => "--symbol <SYMBOL>"
  | .count => "--count <COUNT>"
  | .output => "--output <OUTPUT>"

/-- A switch that takes no value. -/
inductive Switch where
  | raw
  | noSymbols
  | verbose
  | help
deriving DecidableEq, Repr

def Switch.shown : Switch → String
  | .raw => "--raw"
  | .noSymbols => "--no-symbols"
  | .verbose => "--verbose"
  | .help => "--help"

inductive UsageError where
  | unexpected (argument : String)
  | unexpectedValue (value : String) (s : Switch)
  | missingValue (p : Parameter)
  | repeatedParameter (p : Parameter)
  | repeatedSwitch (s : Switch)
  | invalidValue (value : String) (p : Parameter) (reason : NumeralError)
  | missingFile
deriving DecidableEq, Repr

def UsageError.message : UsageError → String
  | .unexpected argument => "error: unexpected argument '" ++ Terminal.plain argument ++ "' found"
  | .unexpectedValue value s =>
    "error: unexpected value '" ++ Terminal.plain value ++ "' for '" ++ s.shown ++
      "' found; no more were expected"
  | .missingValue p => "error: a value is required for '" ++ p.shown ++ "' but none was supplied"
  | .repeatedParameter p => "error: the argument '" ++ p.shown ++ "' cannot be used multiple times"
  | .repeatedSwitch s => "error: the argument '" ++ s.shown ++ "' cannot be used multiple times"
  | .invalidValue value p reason =>
    "error: invalid value '" ++ Terminal.plain value ++ "' for '" ++ p.shown ++ "': " ++
      reason.message
  | .missingFile => "error: the following required arguments were not provided:"

def usage : String := "Disassemble 32-bit ARM ELF images

Usage: arm-dump [OPTIONS] <ELF>

Arguments:
  <ELF>  Path to the ELF file

Options:
      --start <START>    Start address (hex)
  -s, --symbol <SYMBOL>  Start at this symbol
  -c, --count <COUNT>    Maximum number of instructions [default: 64]
      --raw              Print the raw instruction word before each mnemonic
      --no-symbols       Do not annotate addresses with symbols
  -o, --output <OUTPUT>  Write the listing to a file instead of stdout
  -v, --verbose          Debug logging
  -h, --help             Print help
"

inductive Refusal where
  | help
  | misuse (e : UsageError)
deriving DecidableEq, Repr

def Refusal.halt : Refusal → Halt
  | .help => .help usage
  | .misuse e => .usage e.message

end Disarm.Command
