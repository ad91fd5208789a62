import Mathlib.Data.ZMod.Basic
import TapeProcessor.Opcode

/-!
# Cyclic tapes and what commands do to them

The meaning of the six commands, independent of any processor. A tape is a cycle
of byte cells with a head on one of them; the positions are the integers modulo
the number of cells, so that the head goes round without a bound to check.

A command acts on the tape under the signals of the two channels on that clock
(`Signals`): whether the other side takes output, and the byte it offers as
input, if any. What it does is its `Deed`: the tape afterwards, the byte sent and
whether the offered byte was taken. `Tape.act` has no deed for a command that has
to wait, which only `put` and `get` ever do.

`Turn` is the outcome of one clock for a machine that walks through a program,
whatever the places are at which it can stand: the program is finished, the
command at the place waits, or it does its deed and the machine goes on to
another place. The structured semantics and the walk through source text are two
such machines, and the processor is compared with both.
-/

namespace TapeProcessor

/-- A cycle of `n` cells with a head on one of them. -/
structure Tape (n : ℕ) where
  cells : ZMod n → UInt8
  head : ZMod n

/-- The signals of the channels on one clock. -/
structure Signals where
  /-- The other side takes a byte of output. -/
  ready : Bool
  /-- The byte that is offered as input. -/
  input : Option UInt8
  deriving DecidableEq, Repr

/-- What a command does. -/
structure Deed (n : ℕ) where
  tape : Tape n
  sent : Option UInt8
  taken : Bool

/-- The deed of an instruction that leaves both channels alone. -/
def Deed.silent {n : ℕ} (tape : Tape n) : Deed n := ⟨tape, none, false⟩

namespace Tape

variable {n : ℕ}

/-- Two tapes are equal if they agree in every cell and in the head. -/
@[ext] theorem ext {t u : Tape n} (h_cells : t.cells = u.cells) (h_head : t.head = u.head) :
    t = u := by
  cases t
  cases u
  cases h_cells
  cases h_head
  rfl

/-- The byte under the head. -/
def cell (t : Tape n) : UInt8 := t.cells t.head

/-- Replaces the byte under the head. -/
def set (t : Tape n) (byte : UInt8) : Tape n :=
  { t with cells := Function.update t.cells t.head byte }

/-- The tape with the head moved by a distance, round the cycle. -/
def move (t : Tape n) (distance : ZMod n) : Tape n := { t with head := t.head + distance }

/-- A tape with the given bytes in its first cells, zeros in the others, and the
head on the first one. -/
def ofBytes (n : ℕ) (bytes : Array UInt8) : Tape n := ⟨fun i => bytes.getD i.val 0, 0⟩

/-- What a command does to a tape; `none` while it has to wait. -/
def act (t : Tape n) (g : Signals) : Command → Option (Deed n)
  | .inc => some (.silent (t.set (t.cell + 1)))
  | .dec => some (.silent (t.set (t.cell - 1)))
  | .right => some (.silent (t.move 1))
  | .left => some (.silent (t.move (-1)))
  | .put => if g.ready then some ⟨t, some t.cell, false⟩ else none
  | .get => g.input.map fun byte => ⟨t.set byte, none, true⟩

end Tape

/-- The outcome of one clock for a machine that walks through a program. -/
inductive Turn (Place : Type) (n : ℕ)
  /-- The program is finished, and nothing is left to do. -/
  | finished
  /-- The command at the place waits for a channel. -/
  | waits
  /-- The instruction at the place is carried out and the machine goes on. -/
  | goes (place : Place) (deed : Deed n)

end TapeProcessor
