import TapeProcessor.Link

/-!
# The host's end of the link

The terminal sits at the other end of both channels. Before each clock it drives
its side of the link from its state, and after the clock it looks at what the
machine did and takes note of it.

* `Terminal` holds the bytes received and not yet collected, the bytes waiting to
  be sent, and whether the host accepts output.
* `Terminal.drive` and `Terminal.sample` are the two halves around a clock.
* A `Listener` hears each byte as it arrives, and may send it back at once.
* `Terminal.Action` is what the host can do, and `Terminal.perform` does it.

What can be done to a machine, here and elsewhere, is listed as data, so that a whole
session is a list of actions; `Reply` is what any of them answers with.
-/

namespace TapeProcessor

/-- What happens to a byte besides being kept when it arrives. -/
inductive Listener
  /-- Nothing else. -/
  | off
  /-- It is noted as heard. -/
  | record
  /-- It is noted as heard and queued to be sent to the machine. -/
  | echo
  deriving DecidableEq, Repr

/-- The host's end of the link. -/
structure Terminal where
  /-- The bytes received from the machine and not yet collected. -/
  received : Array UInt8
  /-- The bytes to be sent to the machine, the next one first. -/
  pending : List UInt8
  /-- Whether the host accepts output. -/
  accepting : Bool
  listener : Listener
  /-- All bytes that arrived while a listener was set. -/
  heard : Array UInt8
  deriving DecidableEq, Repr

namespace Terminal

/-- A terminal that accepts output and has neither received nor queued a byte. -/
def new : Terminal := ⟨#[], [], true, .off, #[]⟩

/-- The host's side of the link for the next clock: it is ready if it accepts
output, and offers the first byte that waits. -/
def drive (t : Terminal) (l : Link) : Link :=
  { output := { l.output with ready := t.accepting }
    input :=
      { l.input with
        valid := !t.pending.isEmpty
        bits := match t.pending with
          | [] => 0
          | byte :: _ => byte.toNat } }

/-- Queues bytes to be sent. -/
def inject (t : Terminal) (bytes : List UInt8) : Terminal :=
  { t with pending := t.pending ++ bytes }

/-- Lets the listener hear a byte. -/
def hear (t : Terminal) (byte : UInt8) : Terminal :=
  match t.listener with
  | .off => t
  | .record => { t with heard := t.heard.push byte }
  | .echo => { t with heard := t.heard.push byte, pending := t.pending ++ [byte] }

/-- Keeps a byte that arrived. -/
def receive (t : Terminal) (byte : UInt8) : Terminal :=
  { t with received := t.received.push byte }.hear byte

/-- Takes note of the clock that just ran: a byte that passed on the output
channel is kept and heard, then a byte that was consumed leaves the queue. -/
def sample (t : Terminal) (l : Link) : Terminal :=
  let t := if l.output.fire then t.receive (Bits.toByte l.output.bits) else t
  if l.input.taken then { t with pending := t.pending.tail } else t

/-- The received bytes, and the terminal without them. -/
def drain (t : Terminal) : Array UInt8 × Terminal := (t.received, { t with received := #[] })

/-- Whether a byte waits to be sent. -/
def hasPending (t : Terminal) : Bool := !t.pending.isEmpty

end Terminal

/-- The answer to an action. -/
inductive Reply
  | done
  | flag (value : Bool)
  | count (value : Int)
  | bytes (value : Array UInt8)
  deriving DecidableEq, Repr

namespace Terminal

/-- Something the host does. -/
inductive Action
  | inject (bytes : List UInt8)
  | drain
  | accept (flag : Bool)
  | listen (listener : Listener)
  /-- Drives the link without a clock. -/
  | drive
  /-- Samples the link without a clock. -/
  | sample
  deriving DecidableEq, Repr

/-- The terminal and the link after an action, with the answer to it. -/
def perform (t : Terminal) (l : Link) : Action → Reply × Terminal × Link
  | .inject bytes => (.done, t.inject bytes, l)
  | .drain =>
    let (bytes, t) := t.drain
    (.bytes bytes, t, l)
  | .accept accepting => (.done, { t with accepting }, l)
  | .listen listener => (.done, { t with listener }, l)
  | .drive => (.done, t, t.drive l)
  | .sample => (.done, t.sample l, l)

end Terminal

end TapeProcessor
