import TapeProcessor.Board.Basic
import TapeProcessor.Core.Dump

/-!
# Running a board

Every operation that runs instructions asks that the core was reset after the last
load, and is refused otherwise.

* `Board.step` and `Board.run` run one clock, or a given number.
* `Board.runTo` runs until the instruction pointer is at an address.
* `Board.runUntilOutput` runs until the terminal holds a number of bytes, and
  collects what it holds.

A bound on the number of clocks may be any integer; a negative one allows none.
-/

namespace TapeProcessor.Board

variable {Answer : Type}

/-- Carries out an operation if the core was reset after the last load. -/
def whenBooted (b : Board) (operation : Board → Outcome Answer) : Outcome Answer :=
  if b.booted then operation b else .refused .notBooted b

/-- Runs one clock and answers whether an instruction retired. -/
def step (b : Board) : Outcome Bool :=
  b.whenBooted fun b =>
    let (retired, b) := b.clock
    .success retired b []

/-- Runs a number of clocks and answers how many instructions retired. -/
def run (b : Board) (count : Int) : Outcome Nat :=
  b.whenBooted fun b =>
    let (retired, b) := Clock.run clock count.toNat b
    .success retired b []

/-- Runs a number of steps and answers with a record of each. If there is none to
run, it does not matter whether the core was reset. -/
def trace (b : Board) (count : Int) : Outcome (Array Core.Observation) :=
  if count ≤ 0 then .success #[] b []
  else
    b.whenBooted fun b =>
      let (records, b) := Clock.trace clock (fun retired b => b.core.observe retired) count.toNat b
      .success records b []

/-- Runs until the instruction pointer is `target`, for at most a number of
clocks. The result tells how many it took, if the address was reached, and counts
on from `used`. -/
def seek (target used : Nat) : Nat → Board → Option Nat × Board
  | 0, b => (none, b)
  | left + 1, b =>
    if b.core.ip = target then (some used, b) else seek target (used + 1) left b.clock.2

/-- Runs until the instruction pointer is at an address, for at most `limit`
clocks, and answers how many clocks it took, or `limit` if all were used. -/
def runTo (b : Board) (address limit : Int) : Outcome Int :=
  b.whenBooted fun b =>
    let target := b.core.code.wrap address
    -- looked at before each clock and not after the last one, so `limit` also if it is just reached
    match seek target 0 limit.toNat b with
    | (some used, b) => .success used b []
    | (none, b) => .success limit b []

/-- On a board that was reset, a run to an address is the search for it. -/
theorem runTo_eq {b : Board} (h_booted : b.booted = true) (address limit : Int) :
    b.runTo address limit =
      .success ((seek (b.core.code.wrap address) 0 limit.toNat b).1.elim limit Nat.cast)
        (seek (b.core.code.wrap address) 0 limit.toNat b).2 [] := by
  rw [runTo, whenBooted, if_pos h_booted]
  dsimp only
  split
  · next used b' h_seek => rw [h_seek]; rfl
  · next b' h_seek => rw [h_seek]; rfl

/-- Runs until the terminal holds `wanted` bytes, for at most a number of clocks. -/
def gather (wanted : Int) : Nat → Board → Board
  | 0, b => b
  | left + 1, b =>
    if wanted ≤ b.terminal.received.size then b else gather wanted left b.clock.2

/-- The bytes that the terminal received, and the board without them. -/
def collect (b : Board) : Array UInt8 × Board :=
  let (bytes, terminal) := b.terminal.drain
  (bytes, { b with terminal })

/-- Runs until the terminal holds `wanted` bytes, for at most `limit` clocks, and
collects what it holds then. Too few bytes leave a warning in the journal. -/
def runUntilOutput (b : Board) (wanted limit : Int) : Outcome (Array UInt8) :=
  b.whenBooted fun b =>
    -- what is there is collected, whether it is enough or not
    let (bytes, b) := (gather wanted limit.toNat b).collect
    .success bytes b (if bytes.size < wanted then [.outputShort bytes.size wanted limit] else [])

end TapeProcessor.Board
