/-!
Errors of the operating system: a text and a number.
-/

namespace Disarm.Command

structure SystemError where
  text : String
  code : Nat
deriving DecidableEq, Repr

namespace SystemError

def notFound : SystemError := ⟨"No such file or directory", 2⟩

/-- A device is there, but nothing stands behind it. -/
def noDevice : SystemError := ⟨"No such device or address", 6⟩

/-- Contents without an end do not fit into memory. -/
def noMemory : SystemError := ⟨"Cannot allocate memory", 12⟩

def notDirectory : SystemError := ⟨"Not a directory", 20⟩

def isDirectory : SystemError := ⟨"Is a directory", 21⟩

def noSpace : SystemError := ⟨"No space left on device", 28⟩

def nameTooLong : SystemError := ⟨"File name too long", 36⟩

def message (e : SystemError) : String := e.text ++ " (os error " ++ toString e.code ++ ")"

end SystemError

end Disarm.Command
