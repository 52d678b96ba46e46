import Disarm.Instruction.Entry
/-!
The instruction table. The first matching entry decides, so a narrow encoding stands before the
general one that would take it too.
-/

namespace Disarm

namespace Table

/-- The entries without a condition field. -/
def unconditional : List Entry :=
  [ ⟨0xfe000000, 0xfa000000, "blx", [], [.exchangeBranch]⟩,
    ⟨0xfd70f000, 0xf550f000, "pld", [], [.address]⟩ ]

/-- Branch by register, breakpoint, leading zeros and status transfers. They lie in the space of the
comparisons without flags, so they stand before data processing. -/
def miscellaneous : List Entry :=
  [ ⟨0x0ffffff0, 0x012fff10, "bx", [], [.rm]⟩,
    ⟨0x0ffffff0, 0x012fff30, "blx", [], [.rm]⟩,
    ⟨0xfff000f0, 0xe1200070, "bkpt", [], [.breakpoint]⟩,
    ⟨0x0fff0ff0, 0x016f0f10, "clz", [], [.rd, .rm]⟩,
    ⟨0x0fbf0fff, 0x010f0000, "mrs", [], [.rd, .status]⟩,
    ⟨0x0fb0fff0, 0x0120f000, "msr", [], [.statusFields, .rm]⟩,
    ⟨0x0fb0f000, 0x0320f000, "msr", [], [.statusFields, .flexible]⟩ ]

def branches : List Entry :=
  [ ⟨0x0f000000, 0x0f000000, "swi", [], [.comment]⟩,
    ⟨0x0f000000, 0x0a000000, "b", [], [.branch]⟩,
    ⟨0x0f000000, 0x0b000000, "bl", [], [.branch]⟩ ]

/-- Multiplications, swaps and exclusive transfers. -/
def multiplies : List Entry :=
  [ ⟨0x0fe000f0, 0x00000090, "mul", [.setFlags], [.rn, .rm, .rs]⟩,
    ⟨0x0fe000f0, 0x00200090, "mla", [.setFlags], [.rn, .rm, .rs, .rd]⟩,
    ⟨0x0fe000f0, 0x00800090, "umull", [.setFlags], [.rd, .rn, .rm, .rs]⟩,
    ⟨0x0fe000f0, 0x00a00090, "umlal", [.setFlags], [.rd, .rn, .rm, .rs]⟩,
    ⟨0x0fe000f0, 0x00c00090, "smull", [.setFlags], [.rd, .rn, .rm, .rs]⟩,
    ⟨0x0fe000f0, 0x00e00090, "smlal", [.setFlags], [.rd, .rn, .rm, .rs]⟩,
    ⟨0x0ff00ff0, 0x01000090, "swp", [], [.rd, .rm, .atRn]⟩,
    ⟨0x0ff00ff0, 0x01400090, "swpb", [], [.rd, .rm, .atRn]⟩,
    ⟨0x0ff00fff, 0x01900f9f, "ldrex", [], [.rd, .atRn]⟩,
    ⟨0x0ff00ff0, 0x01800f90, "strex", [], [.rd, .rm, .atRn]⟩ ]

/-- Halfword, signed and doubleword transfers. The last entry takes what is left of this space. -/
def halfwords : List Entry :=
  [ ⟨0x0e1000f0, 0x001000b0, "ldrh", [], [.rd, .splitAddress]⟩,
    ⟨0x0e1000f0, 0x000000b0, "strh", [], [.rd, .splitAddress]⟩,
    ⟨0x0e1000f0, 0x001000d0, "ldrsb", [], [.rd, .splitAddress]⟩,
    ⟨0x0e1000f0, 0x001000f0, "ldrsh", [], [.rd, .splitAddress]⟩,
    ⟨0x0e1000f0, 0x000000d0, "ldrd", [], [.rd, .splitAddress]⟩,
    ⟨0x0e1000f0, 0x000000f0, "strd", [], [.rd, .splitAddress]⟩,
    ⟨0x0e000090, 0x00000090, "und", [], [.word]⟩ ]

def dataProcessing : List Entry :=
  [ ⟨0x0de00000, 0x00000000, "and", [.setFlags], [.rd, .rn, .flexible]⟩,
    ⟨0x0de00000, 0x00200000, "eor", [.setFlags], [.rd, .rn, .flexible]⟩,
    ⟨0x0de00000, 0x00400000, "sub", [.setFlags], [.rd, .rn, .flexible]⟩,
    ⟨0x0de00000, 0x00600000, "rsb", [.setFlags], [.rd, .rn, .flexible]⟩,
    ⟨0x0de00000, 0x00800000, "add", [.setFlags], [.rd, .rn, .flexible]⟩,
    ⟨0x0de00000, 0x00a00000, "adc", [.setFlags], [.rd, .rn, .flexible]⟩,
    ⟨0x0de00000, 0x00c00000, "sbc", [.setFlags], [.rd, .rn, .flexible]⟩,
    ⟨0x0de00000, 0x00e00000, "rsc", [.setFlags], [.rd, .rn, .flexible]⟩,
    ⟨0x0df00000, 0x01100000, "tst", [.comparePc], [.rn, .flexible]⟩,
    ⟨0x0df00000, 0x01300000, "teq", [.comparePc], [.rn, .flexible]⟩,
    ⟨0x0df00000, 0x01500000, "cmp", [.comparePc], [.rn, .flexible]⟩,
    ⟨0x0df00000, 0x01700000, "cmn", [.comparePc], [.rn, .flexible]⟩,
    ⟨0x0de00000, 0x01800000, "orr", [.setFlags], [.rd, .rn, .flexible]⟩,
    ⟨0x0de00000, 0x01a00000, "mov", [.setFlags], [.rd, .flexible]⟩,
    ⟨0x0de00000, 0x01c00000, "bic", [.setFlags], [.rd, .rn, .flexible]⟩,
    ⟨0x0de00000, 0x01e00000, "mvn", [.setFlags], [.rd, .flexible]⟩ ]

/-- Extensions and bit fields. The last entry takes what is left of this space. -/
def media : List Entry :=
  [ ⟨0x0fff03f0, 0x068f0070, "sxtb16", [], [.rd, .rotatedRm]⟩,
    ⟨0x0fff03f0, 0x06af0070, "sxtb", [], [.rd, .rotatedRm]⟩,
    ⟨0x0fff03f0, 0x06bf0070, "sxth", [], [.rd, .rotatedRm]⟩,
    ⟨0x0fff03f0, 0x06cf0070, "uxtb16", [], [.rd, .rotatedRm]⟩,
    ⟨0x0fff03f0, 0x06ef0070, "uxtb", [], [.rd, .rotatedRm]⟩,
    ⟨0x0fff03f0, 0x06ff0070, "uxth", [], [.rd, .rotatedRm]⟩,
    ⟨0x0fe00070, 0x07a00050, "sbfx", [], [.rd, .rm, .lowestBit, .width]⟩,
    ⟨0x0fe00070, 0x07e00050, "ubfx", [], [.rd, .rm, .lowestBit, .width]⟩,
    ⟨0x0fe0007f, 0x07c0001f, "bfc", [], [.rd, .lowestBit, .width]⟩,
    ⟨0x0fe00070, 0x07c00010, "bfi", [], [.rd, .rm, .lowestBit, .width]⟩,
    ⟨0x0e000010, 0x06000010, "und", [], [.word]⟩ ]

def transfers : List Entry :=
  [ ⟨0x0d700000, 0x04200000, "strt", [], [.rd, .address]⟩,
    ⟨0x0d700000, 0x04300000, "ldrt", [], [.rd, .address]⟩,
    ⟨0x0d700000, 0x04600000, "strbt", [], [.rd, .address]⟩,
    ⟨0x0d700000, 0x04700000, "ldrbt", [], [.rd, .address]⟩,
    ⟨0x0c500000, 0x04000000, "str", [], [.rd, .address]⟩,
    ⟨0x0c500000, 0x04100000, "ldr", [], [.rd, .address]⟩,
    ⟨0x0c500000, 0x04400000, "strb", [], [.rd, .address]⟩,
    ⟨0x0c500000, 0x04500000, "ldrb", [], [.rd, .address]⟩ ]

/-- Block transfers. With the stack pointer as base they are named for the stack they serve. -/
def blockTransfers : List Entry :=
  [ ⟨0x0e1f0000, 0x080d0000, "stm", [.stackMode], [.base, .registers]⟩,
    ⟨0x0e1f0000, 0x081d0000, "ldm", [.stackMode], [.base, .registers]⟩,
    ⟨0x0e100000, 0x08000000, "stm", [.blockMode], [.base, .registers]⟩,
    ⟨0x0e100000, 0x08100000, "ldm", [.blockMode], [.base, .registers]⟩ ]

/-- Floating point, on coprocessors 1 and 2. -/
def floatingPoint : List Entry :=
  [ ⟨0x0e100f00, 0x0c000100, "stf", [.transferPrecision], [.fd, .coprocessorAddress]⟩,
    ⟨0x0e100f00, 0x0c100100, "ldf", [.transferPrecision], [.fd, .coprocessorAddress]⟩,
    ⟨0x0e100f00, 0x0c000200, "sfm", [], [.fd, .floatCount, .coprocessorAddress]⟩,
    ⟨0x0e100f00, 0x0c100200, "lfm", [], [.fd, .floatCount, .coprocessorAddress]⟩,
    ⟨0x0ff08f10, 0x0e000100, "adf", [.precision, .rounding], [.fd, .fn, .fm]⟩,
    ⟨0x0ff08f10, 0x0e100100, "muf", [.precision, .rounding], [.fd, .fn, .fm]⟩,
    ⟨0x0ff08f10, 0x0e200100, "suf", [.precision, .rounding], [.fd, .fn, .fm]⟩,
    ⟨0x0ff08f10, 0x0e300100, "rsf", [.precision, .rounding], [.fd, .fn, .fm]⟩,
    ⟨0x0ff08f10, 0x0e400100, "dvf", [.precision, .rounding], [.fd, .fn, .fm]⟩,
    ⟨0x0ff08f10, 0x0e500100, "rdf", [.precision, .rounding], [.fd, .fn, .fm]⟩,
    ⟨0x0ff08f10, 0x0e600100, "pow", [.precision, .rounding], [.fd, .fn, .fm]⟩,
    ⟨0x0ff08f10, 0x0e700100, "rpw", [.precision, .rounding], [.fd, .fn, .fm]⟩,
    ⟨0x0ff08f10, 0x0e800100, "rmf", [.precision, .rounding], [.fd, .fn, .fm]⟩,
    ⟨0x0ff08f10, 0x0e900100, "fml", [.precision, .rounding], [.fd, .fn, .fm]⟩,
    ⟨0x0ff08f10, 0x0ea00100, "fdv", [.precision, .rounding], [.fd, .fn, .fm]⟩,
    ⟨0x0ff08f10, 0x0eb00100, "frd", [.precision, .rounding], [.fd, .fn, .fm]⟩,
    ⟨0x0ff08f10, 0x0ec00100, "pol", [.precision, .rounding], [.fd, .fn, .fm]⟩,
    ⟨0x0ff08f10, 0x0e008100, "mvf", [.precision, .rounding], [.fd, .fm]⟩,
    ⟨0x0ff08f10, 0x0e108100, "mnf", [.precision, .rounding], [.fd, .fm]⟩,
    ⟨0x0ff08f10, 0x0e208100, "abs", [.precision, .rounding], [.fd, .fm]⟩,
    ⟨0x0ff08f10, 0x0e308100, "rnd", [.precision, .rounding], [.fd, .fm]⟩,
    ⟨0x0ff08f10, 0x0e408100, "sqt", [.precision, .rounding], [.fd, .fm]⟩,
    ⟨0x0ff08f10, 0x0e508100, "log", [.precision, .rounding], [.fd, .fm]⟩,
    ⟨0x0ff08f10, 0x0e608100, "lgn", [.precision, .rounding], [.fd, .fm]⟩,
    ⟨0x0ff08f10, 0x0e708100, "exp", [.precision, .rounding], [.fd, .fm]⟩,
    ⟨0x0ff08f10, 0x0e808100, "sin", [.precision, .rounding], [.fd, .fm]⟩,
    ⟨0x0ff08f10, 0x0e908100, "cos", [.precision, .rounding], [.fd, .fm]⟩,
    ⟨0x0ff08f10, 0x0ea08100, "tan", [.precision, .rounding], [.fd, .fm]⟩,
    ⟨0x0ff08f10, 0x0eb08100, "asn", [.precision, .rounding], [.fd, .fm]⟩,
    ⟨0x0ff08f10, 0x0ec08100, "acs", [.precision, .rounding], [.fd, .fm]⟩,
    ⟨0x0ff08f10, 0x0ed08100, "atn", [.precision, .rounding], [.fd, .fm]⟩,
    ⟨0x0ff08f10, 0x0ee08100, "urd", [.precision, .rounding], [.fd, .fm]⟩,
    ⟨0x0ff08f10, 0x0ef08100, "nrm", [.precision, .rounding], [.fd, .fm]⟩,
    ⟨0x0ff0ff10, 0x0e90f110, "cmf", [], [.fn, .fm]⟩,
    ⟨0x0ff0ff10, 0x0eb0f110, "cnf", [], [.fn, .fm]⟩,
    ⟨0x0ff0ff10, 0x0ed0f110, "cmfe", [], [.fn, .fm]⟩,
    ⟨0x0ff0ff10, 0x0ef0f110, "cnfe", [], [.fn, .fm]⟩,
    ⟨0x0ff00f10, 0x0e000110, "flt", [.precision, .rounding], [.fn, .rd]⟩,
    ⟨0x0ff00f10, 0x0e100110, "fix", [.rounding], [.rd, .fm]⟩,
    ⟨0x0ff00f10, 0x0e200110, "wfs", [], [.rd]⟩,
    ⟨0x0ff00f10, 0x0e300110, "rfs", [], [.rd]⟩,
    ⟨0x0ff00f10, 0x0e400110, "wfc", [], [.rd]⟩,
    ⟨0x0ff00f10, 0x0e500110, "rfc", [], [.rd]⟩ ]

def coprocessors : List Entry :=
  [ ⟨0x0e100000, 0x0c000000, "stc", [.long], [.coprocessor, .coprocessorTransfer]⟩,
    ⟨0x0e100000, 0x0c100000, "ldc", [.long], [.coprocessor, .coprocessorTransfer]⟩,
    ⟨0x0f000010, 0x0e000000, "cdp", [], [.coprocessor, .coprocessorOperation]⟩,
    ⟨0x0f100010, 0x0e000010, "mcr", [], [.coprocessor, .coprocessorMove]⟩,
    ⟨0x0f100010, 0x0e100010, "mrc", [], [.coprocessor, .coprocessorMove]⟩ ]

end Table

open Table in
def table : List Entry :=
  unconditional ++ miscellaneous ++ branches ++ multiplies ++ halfwords ++ dataProcessing ++
    media ++ transfers ++ blockTransfers ++ floatingPoint ++ coprocessors

namespace Entry

/-- The position of the first entry that matches a word. -/
def index? (w : Word) : Option Nat := table.findIdx? fun e => e.Matches w

/-- The entry a word belongs to. -/
def ofWord (w : Word) : Entry := (table.find? fun e => e.Matches w).getD fallback

end Entry

end Disarm
