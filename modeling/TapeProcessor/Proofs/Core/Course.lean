import TapeProcessor.Core.Step

/-!
# What a clock of the core comes to

The one case analysis of the clock in run mode. `Core.course` lists what the
instruction at the pointer can come to, with the plan that it makes: eleven cases, of
which two wait for a channel. Everything else about instructions is read off the plan
of each case, so that the instructions themselves are opened here and nowhere else.

What a core does on a clock depends on its state and on what it is given from outside.
`Core.Inputs` are the lines, buses and signals that others drive, and `Core.given` is
the core with other inputs. No clock touches them (`Core.inputs_step`), so an
environment is a row of inputs, one for each clock (`Core.through`).
-/

namespace TapeProcessor

namespace Core

/-! ### The course of an instruction -/

/-- What the instruction at the pointer comes to on the next clock, and its plan. -/
inductive Course (c : Core) : Prop
  | inc (h_op : c.opcode = .plain .inc)
      (h_plan : c.execute = { c.advance with dataWrite := some (c.dp, c.cell + 1) })
  | dec (h_op : c.opcode = .plain .dec)
      (h_plan : c.execute = { c.advance with dataWrite := some (c.dp, c.cell - 1) })
  | right (h_op : c.opcode = .plain .right)
      (h_plan : c.execute = { c.advance with dp := (c.dp : Int) + 1 })
  | left (h_op : c.opcode = .plain .left)
      (h_plan : c.execute = { c.advance with dp := (c.dp : Int) - 1 })
  /-- The cell is sent. -/
  | sends (h_op : c.opcode = .plain .put) (h_ready : c.link.output.ready = true)
      (h_plan : c.execute = { c.advance with sent := some c.cell })
  /-- No output is accepted. -/
  | holdsBack (h_op : c.opcode = .plain .put) (h_ready : c.link.output.ready = false)
      (h_plan : c.execute = c.stall)
  /-- The byte that is offered is stored. -/
  | takes (h_op : c.opcode = .plain .get) (h_valid : c.link.input.valid = true)
      (h_plan : c.execute = { c.advance with
        dataWrite := some (c.dp, Bits.toByte c.link.input.bits), taken := true })
  /-- No byte is offered. -/
  | asks (h_op : c.opcode = .plain .get) (h_valid : c.link.input.valid = false)
      (h_plan : c.execute = { c.stall with waiting := true })
  | skips (h_op : c.opcode = .jz) (h_cell : c.cell = 0)
      (h_plan : c.execute = { c.advance with ip := (c.ip : Int) + 1 + c.distance.toNat })
  | enters (h_op : c.opcode = .jz) (h_cell : c.cell ≠ 0)
      (h_plan : c.execute = { c.advance with ip := (c.ip : Int) + 2 })
  | returns (h_op : c.opcode = .jmp)
      (h_plan : c.execute = { c.advance with ip := (c.ip : Int) + 1 - c.distance.toNat })

/-- **Every instruction takes one of these courses.** -/
theorem course (c : Core) : c.Course := by
  -- the plan of a command is that of `executeCommand`
  have h_command : ∀ command, c.opcode = .plain command →
      c.execute = c.executeCommand command := by
    intro command h_op
    rw [execute, h_op]
  cases h_op : c.opcode with
  | plain command =>
    have h_plan := h_command command h_op
    cases command with
    | inc => exact .inc h_op h_plan
    | dec => exact .dec h_op h_plan
    | right => exact .right h_op h_plan
    | left => exact .left h_op h_plan
    | put =>
      -- the signal of the other side decides between two courses
      rw [executeCommand] at h_plan
      cases h_ready : c.link.output.ready with
      | true => exact .sends h_op h_ready (h_plan.trans (if_pos h_ready))
      | false => exact .holdsBack h_op h_ready (h_plan.trans (if_neg (by simp [h_ready])))
    | get =>
      rw [executeCommand] at h_plan
      cases h_valid : c.link.input.valid with
      | true => exact .takes h_op h_valid (h_plan.trans (if_pos h_valid))
      | false => exact .asks h_op h_valid (h_plan.trans (if_neg (by simp [h_valid])))
  | jz =>
    have h_plan : c.execute = if c.cell = 0 then
        { c.advance with ip := (c.ip : Int) + 1 + c.distance.toNat }
        else { c.advance with ip := (c.ip : Int) + 2 } := by
      rw [execute, h_op]
    -- both jumps are relative to the next word, the first one with the cell as its condition
    by_cases h_cell : c.cell = 0
    · exact .skips h_op h_cell (h_plan.trans (if_pos h_cell))
    · exact .enters h_op h_cell (h_plan.trans (if_neg h_cell))
  | jmp => exact .returns h_op (by rw [execute, h_op])

/-! ### What is given to a core -/

/-- What others drive on a core: the control lines, the buses, and their side of the
link. -/
structure Inputs where
  init : Bool
  boot : Bool
  codeBus : LoadBus
  dataBus : LoadBus
  /-- Whether output is accepted. -/
  ready : Bool
  /-- Whether a byte of input is offered. -/
  valid : Bool
  bits : Int

/-- Whether the inputs keep a core from running an instruction. -/
def Inputs.holds (i : Inputs) : Bool := i.init || i.boot

/-- The inputs of a core. -/
def inputs (c : Core) : Inputs where
  init := c.init
  boot := c.boot
  codeBus := c.codeBus
  dataBus := c.dataBus
  ready := c.link.output.ready
  valid := c.link.input.valid
  bits := c.link.input.bits

/-- The core with other inputs. -/
def given (c : Core) (i : Inputs) : Core :=
  { c with
    init := i.init
    boot := i.boot
    codeBus := i.codeBus
    dataBus := i.dataBus
    link :=
      { output := { c.link.output with ready := i.ready }
        input := { c.link.input with valid := i.valid, bits := i.bits } } }

variable (c : Core) (i : Inputs)

@[simp] theorem inputs_given : (c.given i).inputs = i := rfl

@[simp] theorem given_inputs : c.given c.inputs = c := rfl

/-- **A clock leaves its inputs alone.** -/
@[simp] theorem inputs_step : c.step.2.inputs = c.inputs := rfl

/-- The core after a clock for each of the inputs. -/
def through (c : Core) : List Inputs → Core
  | [] => c
  | i :: rest => (c.given i).step.2.through rest

/-- The number of instructions that retire on these clocks. -/
def retiredOn (c : Core) : List Inputs → Nat
  | [] => 0
  | i :: rest => (c.given i).step.1.toNat + (c.given i).step.2.retiredOn rest

/-- **A run on its own** is a run with the inputs that are there. -/
theorem through_replicate (count : Nat) :
    c.through (List.replicate count c.inputs) = Clock.after step count c ∧
      c.retiredOn (List.replicate count c.inputs) = Clock.retired step count c := by
  induction count generalizing c with
  | zero => exact ⟨rfl, rfl⟩
  | succ count ih =>
    -- the inputs are those of the next core as well, so the rest of the row is a run on its own
    obtain ⟨h_after, h_retired⟩ := ih c.step.2
    rw [inputs_step] at h_after h_retired
    rw [List.replicate_succ, through, retiredOn, given_inputs, h_after, h_retired]
    exact ⟨rfl, rfl⟩

end Core

end TapeProcessor
