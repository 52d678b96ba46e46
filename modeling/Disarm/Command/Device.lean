import Disarm.Command.SystemError
/-!
Devices and targets. A device has a name like a file, but what is read from it was never written to
it. A target is where a listing goes once its file or device is open.
-/

namespace Disarm.Command

/-- Where a listing goes. What stands outside takes all and is not looked at again; a blocked device
can be opened but takes nothing. -/
inductive Target where
  | output
  | file (name : String)
  | elsewhere
  | blocked (cause : SystemError)
deriving DecidableEq, Repr

namespace Target

/-- What is met when bytes are passed on to a target. -/
def obstacle : Target → Option SystemError
  | blocked cause => some cause
  | _ => none

end Target

/-- A device, told apart from others by what it gives and takes. -/
inductive Device where
  | null
  | endless
  | full
  | terminal
  | output
  | stream
deriving DecidableEq, Repr

namespace Device

def read : Device → Except SystemError ByteArray
  | null | output | stream => .ok .empty
  | endless | full => .error .noMemory
  | terminal => .error .noDevice

/-- The target that a device is when it is opened for writing. A full one shows itself only when it
is to take bytes. -/
def target : Device → Except SystemError Target
  | null | endless | stream => .ok .elsewhere
  | full => .ok (.blocked .noSpace)
  | terminal => .error .noDevice
  | output => .ok .output

end Device

end Disarm.Command
