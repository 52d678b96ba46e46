import Disarm.Command.Device
/-!
The working directory as the command line sees it: named files and no directories below it. A path
leads to a file or a device, to a place where a file can be made, to a directory, or nowhere.
-/

namespace Disarm.Command

/-- What is known to stand at a path outside: a directory, `fixed` if nothing can be made in it, or a
device. -/
inductive Fixture where
  | directory (fixed : Bool)
  | device (d : Device)
deriving DecidableEq, Repr

/-- Named files, the path of the directory around them, and what is known of other paths. A path from
the root is the list of its names. -/
structure Directory where
  files : List (String × ByteArray)
  parent : List String := []
  outside : List String → Option Fixture := fun _ => none

/-- Where a path leads. A free name is that of no file yet, in the directory itself or outside. -/
inductive Place where
  | here
  | outside (path : List String)
  | file (name : String) (data : ByteArray)
  | device (d : Device)
  | free (inside : Bool) (name : String)

namespace Directory

def get? (d : Directory) (name : String) : Option ByteArray := d.files.lookup name

def put (d : Directory) (name : String) (data : ByteArray) : Directory :=
  { d with files := (name, data) :: d.files.filter (·.1 ≠ name) }

/-- The directory after a listing went to a target. -/
def save (d : Directory) (t : Target) (data : ByteArray) : Directory :=
  match t with
  | .file name => d.put name data
  | .output | .elsewhere | .blocked _ => d

def maxName : Nat := 255

def maxPath : Nat := 4095

/-- What a name stands for in a directory outside. -/
def outsideEntry (d : Directory) (path : List String) (name : String) : Except SystemError Place :=
  match d.outside (path ++ [name]) with
  | some (.directory _) => .ok (.outside (path ++ [name]))
  | some (.device v) => .ok (.device v)
  | none =>
    if d.outside path = some (.directory true) then .error .notFound
    else .ok (.free false name)

/-- One step of a path. An empty step stays where it is, and so does a step up from the root. -/
def step (d : Directory) (p : Place) (name : String) : Except SystemError Place :=
  match p with
  | .file .. | .device _ => .error .notDirectory
  | .free .. => .error .notFound
  | .outside path =>
    if name = "" ∨ name = "." then .ok p
    else if name = ".." then .ok (.outside path.dropLast)
    else if maxName < name.utf8ByteSize then .error .nameTooLong
    else d.outsideEntry path name
  | .here =>
    if name = "" ∨ name = "." then .ok p
    else if name = ".." then .ok (.outside d.parent)
    else if maxName < name.utf8ByteSize then .error .nameTooLong
    else
      match d.get? name with
      | some data => .ok (.file name data)
      | none => .ok (.free true name)

def walk (d : Directory) (p : Place) (l : List String) : Except SystemError Place :=
  l.foldlM (d.step ·) p

/-- The steps of a path and the place they start at. A path that is too long is refused before any
step is taken. -/
def steps (path : String) : Except SystemError (Place × List String) :=
  if maxPath < path.utf8ByteSize then .error .nameTooLong
  else
    match (path.toList.splitOn '/').map String.ofList with
    | "" :: l => .ok (.outside [], l)
    | l => .ok (.here, l)

def read (d : Directory) (path : String) : Except SystemError ByteArray := do
  let (p, l) ← steps path
  match ← d.walk p l with
  | .here | .outside _ => .error .isDirectory
  | .free .. => .error .notFound
  | .file _ data => return data
  | .device v => v.read

/-- Where a listing goes that is written to a path. A path that ends in a slash is one of a
directory. -/
def target (d : Directory) (path : String) : Except SystemError Target := do
  let (p, l) ← steps path
  match l.reverse.dropWhile (· = "") with
  | [] => .error .isDirectory
  | last :: parents =>
    let slashed := parents.length + 1 < l.length
    match ← d.walk p parents.reverse with
    | .file .. | .device _ => .error .notDirectory
    | .free .. => .error .notFound
    | p =>
      if slashed then .error .isDirectory
      else
        match ← d.step p last with
        | .here | .outside _ => .error .isDirectory
        | .file name _ => return .file name
        | .device v => v.target
        | .free inside name => return if inside then .file name else .elsewhere

end Directory

end Disarm.Command
