import TapeProcessor.Core.Step
import TapeProcessor.Terminal

/-!
# What can be done to a core

`Core.Action` lists the clocks, the control lines, the buses and the ways to set
registers and memories by hand; `Core.perform` does one of them.
-/

namespace TapeProcessor.Core

/-- Something done to a core. -/
inductive Action
  | step
  | run (count : Int)
  /-- Writes bytes straight into a memory, from an address of any size on. -/
  | store (bank : Bank) (address : Int) (bytes : List UInt8)
  | setIp (address : Nat)
  | setDp (address : Nat)
  | setInit (flag : Bool)
  | setBoot (flag : Bool)
  | offer (bank : Bank) (address bits : Int)
  | withdraw (bank : Bank)
  deriving DecidableEq, Repr

/-- The core after an action, with the answer to it. -/
def perform (c : Core) : Action → Reply × Core
  | .step =>
    let (retired, c) := c.step
    (.flag retired, c)
  | .run count =>
    let (retired, c) := c.run count
    (.count retired, c)
  | .store bank address bytes => (.done, c.store bank address bytes)
  | .setIp ip => (.done, { c with ip })
  | .setDp dp => (.done, { c with dp })
  | .setInit init => (.done, { c with init })
  | .setBoot boot => (.done, { c with boot })
  | .offer bank address bits => (.done, c.offer bank address bits)
  | .withdraw bank => (.done, c.withdraw bank)

end TapeProcessor.Core
