/-!
Text without the sequences that control a terminal. Control characters other than white space are
dropped, and so is every sequence that an escape character opens: a designation, a control sequence
with its parameters, a device or application string.
-/

namespace Disarm.Terminal

def Blank (c : Char) : Prop := c = '\t' ∨ c = '\n' ∨ c = '\x0c' ∨ c = '\r'

instance (c : Char) : Decidable (Blank c) := inferInstanceAs (Decidable (_ ∨ _))

/-- Characters outside the control characters of ASCII; the space is one of them. -/
def Graphic (c : Char) : Prop := ' ' ≤ c ∧ c ≠ '\x7f'

instance (c : Char) : Decidable (Graphic c) := inferInstanceAs (Decidable (_ ∧ _))

/-- The part of a sequence that is being read. White space inside one may be shown, and then what
follows it up to the next control character; after that the sequence goes on. -/
inductive Part where
  | escape
  | designation
  | control
  | device
  | deviceParameters
  | deviceIntermediates
  | contents
  | command
deriving DecidableEq, Repr

inductive State where
  | shown (resume : Option Part)
  | within (p : Part)
deriving DecidableEq, Repr

abbrev State.start : State := .shown none

def Part.ShowsBlanks : Part → Prop
  | escape | designation | control => True
  | device | deviceParameters | deviceIntermediates | contents | command => False

instance : (p : Part) → Decidable p.ShowsBlanks
  | .escape | .designation | .control => isTrue trivial
  | .device | .deviceParameters | .deviceIntermediates | .contents | .command => isFalse id

/-- Characters that end a string. Its terminator is looked for byte by byte, so that a character ends
it that merely has the terminator among its bytes. -/
def Terminates (c : Char) : Prop := 0x9c ∈ String.utf8EncodeChar c

instance (c : Char) : Decidable (Terminates c) := inferInstanceAs (Decidable (_ ∈ _))

/-- Where a character that is not shown leads from a part. A character that means nothing there
changes nothing. -/
def Part.next (p : Part) (c : Char) : State :=
  match p with
  | escape =>
    if ' ' ≤ c ∧ c ≤ '/' then .within designation
    else if c = '[' then .within control
    else if c = ']' then .within command
    else if c = 'P' then .within device
    else if c = 'X' ∨ c = '^' ∨ c = '_' then .within contents
    else if '0' ≤ c ∧ c ≤ '~' then .start
    else .within escape
  | designation => if '0' ≤ c ∧ c ≤ '~' then .start else .within designation
  | control => if '@' ≤ c ∧ c ≤ '~' then .start else .within control
  | device =>
    if ' ' ≤ c ∧ c ≤ '/' then .within deviceIntermediates
    else if '0' ≤ c ∧ c ≤ '?' then .within deviceParameters
    else if '@' ≤ c ∧ c ≤ '~' then .within contents
    else .within device
  | deviceParameters =>
    if ' ' ≤ c ∧ c ≤ '/' then .within deviceIntermediates
    else if '<' ≤ c ∧ c ≤ '~' then .within contents
    else .within deviceParameters
  | deviceIntermediates =>
    if '0' ≤ c ∧ c ≤ '~' then .within contents else .within deviceIntermediates
  | contents => if Terminates c then .start else .within contents
  | command => if c = '\x07' then .start else .within command

/-- Reads one character: whether it is shown, and the state after it. An escape character opens a
sequence anywhere, and cancelling or substituting ends one. -/
def State.step (s : State) (c : Char) : Bool × State :=
  if c = '\x1b' then (false, .within .escape)
  else if c = '\x18' ∨ c = '\x1a' then (false, .start)
  else
    match s with
    | .shown resume =>
      if Graphic c ∨ Blank c then (true, .shown (if c ≤ '\x7f' then resume else none))
      else (false, resume.elim .start .within)
    | .within p =>
      if Blank c ∧ p.ShowsBlanks then (true, .shown (some p)) else (false, p.next c)

def visible : State → List Char → List Char
  | _, [] => []
  | s, c :: l =>
    match s.step c with
    | (true, s) => c :: visible s l
    | (false, s) => visible s l

def plain (t : String) : String := String.ofList (visible .start t.toList)

end Disarm.Terminal
