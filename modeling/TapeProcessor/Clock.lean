/-!
# Running a machine clock by clock

A clocked machine takes one state to the next and tells whether an instruction
retired on the way. Everything that runs a machine for a number of clocks is an
iteration of that one function.

* `Clock.after` is the state after a number of clocks and `Clock.retired` the
  number of instructions retired until then.
* `Clock.run` computes both in one pass (`Clock.run_eq`).
* `Clock.trace` records something of the machine after each clock.
-/

namespace TapeProcessor.Clock

variable {State Record : Type}

/-- The state after `n` clocks. -/
def after (clock : State → Bool × State) : Nat → State → State
  | 0, s => s
  | n + 1, s => after clock n (clock s).2

/-- The number of instructions retired on `n` clocks. -/
def retired (clock : State → Bool × State) : Nat → State → Nat
  | 0, _ => 0
  | n + 1, s => (clock s).1.toNat + retired clock n (clock s).2

/-- Continues a run in which `count` instructions have retired. -/
@[specialize] def runOnto (clock : State → Bool × State) (count : Nat) :
    Nat → State → Nat × State
  | 0, s => (count, s)
  | n + 1, s =>
    match clock s with
    | (true, s) => runOnto clock (count + 1) n s
    | (false, s) => runOnto clock count n s

/-- Runs for `n` clocks and counts the instructions that retire. -/
@[specialize] def run (clock : State → Bool × State) (n : Nat) (s : State) : Nat × State :=
  runOnto clock 0 n s

/-- Continues a trace behind the records made so far. -/
@[specialize] def traceOnto (clock : State → Bool × State) (record : Bool → State → Record)
    (before : Array Record) : Nat → State → Array Record × State
  | 0, s => (before, s)
  | n + 1, s =>
    match clock s with
    | (retired, s) => traceOnto clock record (before.push (record retired s)) n s

/-- Runs for `n` clocks and records the state after each of them. -/
@[specialize] def trace (clock : State → Bool × State) (record : Bool → State → Record) (n : Nat)
    (s : State) : Array Record × State :=
  traceOnto clock record #[] n s

/-! ### Laws of iteration -/

variable (clock : State → Bool × State)

@[simp] theorem after_zero (s : State) : after clock 0 s = s := rfl

theorem after_succ (n : Nat) (s : State) :
    after clock (n + 1) s = after clock n (clock s).2 := rfl

/-- First so many clocks, then the others. -/
theorem after_add (m n : Nat) (s : State) :
    after clock (m + n) s = after clock n (after clock m s) := by
  induction m generalizing s with
  | zero => rw [Nat.zero_add]; rfl
  | succ m ih => rw [Nat.succ_add]; exact ih (clock s).2

@[simp] theorem retired_zero (s : State) : retired clock 0 s = 0 := rfl

theorem retired_succ (n : Nat) (s : State) :
    retired clock (n + 1) s = (clock s).1.toNat + retired clock n (clock s).2 := rfl

/-- A run goes on counting from what has retired before. -/
theorem runOnto_eq (count n : Nat) (s : State) :
    runOnto clock count n s = (count + retired clock n s, after clock n s) := by
  induction n generalizing count s with
  | zero => rfl
  | succ n ih =>
    rw [runOnto, retired_succ, after_succ]
    split
    next t h_step => rw [ih, h_step]; simp [Nat.add_assoc]
    next t h_step => rw [ih, h_step]; simp

/-- **A run counts what retires and ends in the state after its clocks.** -/
theorem run_eq (n : Nat) (s : State) :
    run clock n s = (retired clock n s, after clock n s) := by
  rw [run, runOnto_eq, Nat.zero_add]

end TapeProcessor.Clock
