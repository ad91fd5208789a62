import TapeProcessor.Bits
import TapeProcessor.Text.Hex

/-!
# The byte channels between machine and host

Each direction has a channel with two flags and a value. The producer raises
`valid` while it offers the value in `bits`, the consumer raises `ready` while it
can take one, and a byte passes on a clock on which both are high.

* `Channel` is such a channel. On the output channel the machine drives `valid`
  and `bits` and the host drives `ready`.
* `InputChannel` is the channel in the other direction. The machine raises
  `ready` only while it waits for a byte, and `taken` on the clock on which it
  consumes one.
* `Link` is the pair of them; `Link.Action` is a hand on its signals from outside.
* `Channel.describe` writes a channel out.
-/

namespace TapeProcessor

/-- The signals of a channel. -/
structure Channel where
  valid : Bool
  ready : Bool
  bits : Int
  deriving DecidableEq, Repr

namespace Channel

/-- A channel on which nothing is driven. -/
def idle : Channel := ⟨false, false, 0⟩

/-- Whether a byte passes on this clock. -/
def fire (c : Channel) : Bool := c.valid && c.ready

/-- The direction of a channel; it opens the channel's description. -/
inductive Kind
  | undirected
  | output
  | input
  deriving DecidableEq, Repr

/-- The name of a kind of channel. -/
def Kind.name : Kind → String
  | .undirected => "Decoupled"
  | .output => "OutputChannel"
  | .input => "InputChannel"

/-- A flag in a description. -/
def flagText (flag : Bool) : String := if flag then "True" else "False"

/-- The description of a channel of the given kind. -/
def describe (kind : Kind) (c : Channel) : String :=
  kind.name ++ "(valid=" ++ flagText c.valid ++ ", ready=" ++ flagText c.ready ++ ", bits="
    ++ Hex.Style.markedByte.render c.bits ++ ")"

end Channel

/-- The channel from the host to the machine. -/
structure InputChannel extends Channel where
  /-- The machine consumed `bits` on this clock. -/
  taken : Bool
  deriving DecidableEq, Repr

namespace InputChannel

/-- A channel on which nothing is driven. -/
def idle : InputChannel := ⟨Channel.idle, false⟩

end InputChannel

/-- The channels of one machine, in both directions. -/
structure Link where
  output : Channel
  input : InputChannel
  deriving DecidableEq, Repr

namespace Link

/-- The link of a machine that was just made. -/
def idle : Link := ⟨Channel.idle, InputChannel.idle⟩

/-- A signal set by hand; the value of `bits` may be any integer. -/
inductive Action
  | outputValid (flag : Bool)
  | outputReady (flag : Bool)
  | outputBits (bits : Int)
  | inputValid (flag : Bool)
  | inputReady (flag : Bool)
  | inputBits (bits : Int)
  | inputTaken (flag : Bool)
  deriving DecidableEq, Repr

/-- The link after a signal was set. -/
def perform (l : Link) : Action → Link
  | .outputValid valid => { l with output := { l.output with valid } }
  | .outputReady ready => { l with output := { l.output with ready } }
  | .outputBits bits => { l with output := { l.output with bits } }
  | .inputValid valid => { l with input := { l.input with valid } }
  | .inputReady ready => { l with input := { l.input with ready } }
  | .inputBits bits => { l with input := { l.input with bits } }
  | .inputTaken taken => { l with input := { l.input with taken } }

end Link

end TapeProcessor
