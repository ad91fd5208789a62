import TapeProcessor.Core.Basic

/-!
# Register dumps and traces

* `Core.dump` shows the registers and the channels of a core as four lines.
* `Core.Observation` is what a trace keeps of one clock, and `Core.observe` takes
  it from the state after the clock.
-/

namespace TapeProcessor.Core

/-- A flag as a digit. -/
def digitOf (flag : Bool) : String := if flag then "1" else "0"

/-- The line of a channel in a dump. -/
def dumpChannel (name : String) (c : Channel) : String :=
  "  " ++ name ++ " valid=" ++ digitOf c.valid ++ " ready=" ++ digitOf c.ready ++ " bits="
    ++ Hex.Style.markedByte.render c.bits

/-- The registers, the current instruction and cell, and the channels. -/
def dump (c : Core) : List String :=
  [ "  IP = " ++ Hex.Style.shortAddress.render c.ip ++ "  DP = "
      ++ Hex.Style.wideAddress.render c.dp,
    "  INST = " ++ Hex.Style.markedByte.render c.instruction.toNat ++ " (" ++ c.opcode.mnemonic
      ++ ")  CELL = " ++ Hex.Style.markedByte.render c.cell.toNat,
    dumpChannel "TX" c.link.output,
    dumpChannel "RX" c.link.input.toChannel ]

/-- What a trace keeps of a clock. -/
structure Observation where
  retired : Bool
  ip : Nat
  dp : Nat
  cell : UInt8
  link : Link
  deriving DecidableEq, Repr

/-- The record of a clock, from whether an instruction retired and the state after
the clock. -/
def observe (retired : Bool) (c : Core) : Observation :=
  ⟨retired, c.ip, c.dp, c.cell, c.link⟩

end TapeProcessor.Core
