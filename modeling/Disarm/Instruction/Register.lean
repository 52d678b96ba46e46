/-!
Names of the registers and of the sixteen conditions.
-/

namespace Disarm

abbrev Register := BitVec 4

namespace Register

def names : Vector String 16 :=
  #v["r0", "r1", "r2", "r3", "r4", "r5", "r6", "r7", "r8", "r9", "r10", "r11", "r12",
    "sp", "lr", "pc"]

def name (r : Register) : String := names.get r.toFin

abbrev pc : Register := 15

end Register

abbrev Condition := BitVec 4

namespace Condition

/-- Condition suffixes in encoding order; the fifteenth condition always holds and has none. -/
def suffixes : Vector String 16 :=
  #v["eq", "ne", "cs", "cc", "mi", "pl", "vs", "vc", "hi", "ls", "ge", "lt", "gt", "le", "", "nv"]

def suffix (c : Condition) : String := suffixes.get c.toFin

end Condition

end Disarm
