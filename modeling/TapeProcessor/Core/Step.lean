import TapeProcessor.Clock
import TapeProcessor.Core.Basic

/-!
# One clock of the core

On a clock everything is computed from the state at its start and takes effect at
its end. `Core.plan` is the first half, which only reads; `Core.commit` is the
second, which only writes.

* In load mode, and while the reset line is high, no instruction runs
  (`Core.hold`): the buses write the memories, and a reset puts both pointers to
  zero.
* Otherwise the instruction at the pointer runs (`Core.execute`). It either
  retires, or it stalls because a channel is not available, and then nothing but
  the counters and the channel signals changes.
* `Core.step` is one clock, `Core.run` a number of them.

The lemmas at the end give each field of the state after a clock; the pointers are
in range then, whatever the plan asks for (`Core.ip_commit_lt`).
-/

namespace TapeProcessor

/-- What became of the instruction on a clock. -/
inductive Verdict
  /-- No instruction ran. -/
  | held
  /-- The instruction did its work. -/
  | retired
  /-- The instruction waits for a channel. -/
  | stalled
  deriving DecidableEq, Repr

/-- What a clock will change. The pointers are given before they wrap. -/
structure Plan where
  codeWrite : Option (Nat × UInt8)
  dataWrite : Option (Nat × UInt8)
  ip : Int
  dp : Int
  /-- The byte offered on the output channel. -/
  sent : Option UInt8
  /-- Whether the machine asks for a byte on the input channel. -/
  waiting : Bool
  /-- Whether the machine consumes the byte on the input channel. -/
  taken : Bool
  verdict : Verdict

namespace LoadBus

/-- The write that a bus asks of a memory. -/
def write? (p : LoadBus) (m : Memory) : Option (Nat × UInt8) :=
  if p.valid then some (m.wrap p.address, Bits.toByte p.bits) else none

end LoadBus

namespace Memory

/-- The memory after a write that may be asked for. -/
def apply (m : Memory) : Option (Nat × UInt8) → Memory
  | none => m
  | some (address, byte) => m.write address byte

@[simp] theorem size_apply (m : Memory) (write : Option (Nat × UInt8)) :
    (m.apply write).size = m.size := by
  cases write <;> simp [apply]

end Memory

namespace Core

/-- The clock in load mode or under reset. -/
def hold (c : Core) : Plan where
  codeWrite := if c.init then c.codeBus.write? c.code else none
  dataWrite := if c.init then c.dataBus.write? c.data else none
  ip := if c.boot then 0 else c.ip
  dp := if c.boot then 0 else c.dp
  sent := none
  waiting := false
  taken := false
  verdict := .held

/-- An instruction that goes on to the next one and does nothing else. -/
def advance (c : Core) : Plan where
  codeWrite := none
  dataWrite := none
  ip := c.ip + 1
  dp := c.dp
  sent := none
  waiting := false
  taken := false
  verdict := .retired

/-- An instruction that stays where it is. -/
def stall (c : Core) : Plan := { c.advance with ip := c.ip, verdict := .stalled }

/-- The clock on which a command runs. -/
def executeCommand (c : Core) : Command → Plan
  | .inc => { c.advance with dataWrite := some (c.dp, c.cell + 1) }
  | .dec => { c.advance with dataWrite := some (c.dp, c.cell - 1) }
  | .right => { c.advance with dp := (c.dp : Int) + 1 }
  | .left => { c.advance with dp := (c.dp : Int) - 1 }
  | .put => if c.link.output.ready then { c.advance with sent := some c.cell } else c.stall
  -- asks for a byte only where there is none
  | .get =>
    if c.link.input.valid then
      { c.advance with
        dataWrite := some (c.dp, Bits.toByte c.link.input.bits)
        taken := true }
    else { c.stall with waiting := true }

/-- The word behind the instruction, which a jump takes as its distance. -/
def distance (c : Core) : UInt8 := c.code.read (c.code.wrap ((c.ip : Int) + 1))

/-- The clock on which the instruction at the pointer runs. -/
def execute (c : Core) : Plan :=
  match c.opcode with
  | .plain command => c.executeCommand command
  | .jz =>
    -- the distance counts from the word that holds it
    if c.cell = 0 then { c.advance with ip := (c.ip : Int) + 1 + c.distance.toNat }
    else { c.advance with ip := (c.ip : Int) + 2 }
  | .jmp => { c.advance with ip := (c.ip : Int) + 1 - c.distance.toNat }

/-- What the next clock will change. -/
-- load mode and the reset line hold the instruction, not the buses
def plan (c : Core) : Plan := if c.init || c.boot then c.hold else c.execute

/-- The state after the changes of a clock. -/
def commit (p : Plan) : Core → Core
  | ⟨code, data, _, _, init, boot, codeBus, dataBus, link, cycles, stalls⟩ =>
    -- The addresses are wrapped first, so that the memories are written in place.
    let ip := code.wrap p.ip
    let dp := data.wrap p.dp
    { code := code.apply p.codeWrite
      data := data.apply p.dataWrite
      ip, dp, init, boot, codeBus, dataBus
      link :=
        { output :=
            { link.output with
              valid := p.sent.isSome
              bits := match p.sent with
                | some byte => byte.toNat
                | none => 0 }
          input := { link.input with ready := p.waiting, taken := p.taken } }
      cycles := cycles + 1
      stalls := match p.verdict with
        | .stalled => stalls + 1
        | _ => stalls }

/-- One clock: whether an instruction retired, and the state after it. -/
def step (c : Core) : Bool × Core :=
  let p := c.plan
  (p.verdict == .retired, c.commit p)

/-- Runs for a number of clocks and counts the instructions that retire; there is
no clock to run for a negative number. -/
def run (c : Core) (count : Int) : Nat × Core := Clock.run step count.toNat c

/-! ### What a clock leaves -/

section Commit

variable (c : Core) (p : Plan)

@[simp] theorem code_commit : (c.commit p).code = c.code.apply p.codeWrite := rfl

@[simp] theorem data_commit : (c.commit p).data = c.data.apply p.dataWrite := rfl

@[simp] theorem ip_commit : (c.commit p).ip = c.code.wrap p.ip := rfl

@[simp] theorem dp_commit : (c.commit p).dp = c.data.wrap p.dp := rfl

@[simp] theorem init_commit : (c.commit p).init = c.init := rfl

@[simp] theorem boot_commit : (c.commit p).boot = c.boot := rfl

@[simp] theorem codeBus_commit : (c.commit p).codeBus = c.codeBus := rfl

@[simp] theorem dataBus_commit : (c.commit p).dataBus = c.dataBus := rfl

@[simp] theorem cycles_commit : (c.commit p).cycles = c.cycles + 1 := rfl

/-- Only a stalled instruction is counted as a stall. -/
theorem stalls_commit :
    (c.commit p).stalls = c.stalls + (if p.verdict = .stalled then 1 else 0) := by
  obtain ⟨_, _, _, _, _, _, _, verdict⟩ := p
  cases verdict <;> rfl

/-- The registers stay addresses of their memories, whatever they were. -/
theorem ip_commit_lt : (c.commit p).ip < (c.commit p).code.size := by
  rw [ip_commit, code_commit, Memory.size_apply]
  exact c.code.wrap_lt p.ip

/-- The data pointer stays in range as well. -/
theorem dp_commit_lt : (c.commit p).dp < (c.commit p).data.size := by
  rw [dp_commit, data_commit, Memory.size_apply]
  exact c.data.wrap_lt p.dp

end Commit

@[simp] theorem step_fst (c : Core) : c.step.1 = (c.plan.verdict == .retired) := rfl

@[simp] theorem step_snd (c : Core) : c.step.2 = c.commit c.plan := rfl

end Core

end TapeProcessor
