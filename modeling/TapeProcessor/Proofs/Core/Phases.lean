import Mathlib.Logic.Function.Basic
import TapeProcessor.Proofs.Core.Access
import TapeProcessor.Proofs.Core.Instruction

/-!
# The five phases of a clock

An `Engine` is the machine as it is specified. Its addresses and registers are integers
modulo the sizes of the memories and its bytes are integers modulo 256, so that nothing
in it is masked and nothing can be out of range. `Engine.clock` is one clock of it. In
run mode it goes through five phases, and all of them read the state from before the
clock: the operation and the word behind it are fetched, the cell is read, a value is
computed, the value is committed to the cell, and the registers advance.

`Core.engine` sees a core as an engine. `Core.step_refines_phases` says that **a clock
of the core is a clock of the engine**, on every core whose pointers are in range and
whatever it is given. Since a core in range is determined by its engine
(`Core.Spans.eq_of_engine_eq`), this says all there is to say about its memories and
registers.

The proof compares the plan of each course (`Core.Course`) with the phases. What a plan
leaves is seen through the engine in `Core.Spans.engine_commit`, where the wraps of the
core become the arithmetic of the engine.
-/

namespace TapeProcessor

/-! ### The specification -/

/-- The state on which a clock is specified. -/
@[ext] structure Engine (words cells : ℕ) where
  code : ZMod words → ZMod 256
  data : ZMod cells → ZMod 256
  ip : ZMod words
  dp : ZMod cells

namespace Engine

variable {words cells : ℕ} (e : Engine words cells) (i : Core.Inputs)

/-- The operation that is fetched: 0 and 1 count the cell up and down, 2 and 3 move the
data pointer, 4 sends the cell, 5 stores a byte of input, 6 and 7 jump. -/
def opcode : ℕ := (e.code e.ip).val % 8

/-- The word behind the operation, fetched with it. -/
def literal : ℕ := (e.code (e.ip + 1)).val

/-- The cell that is read. -/
def operand : ZMod 256 := e.data e.dp

/-- The value that is computed for the cell. -/
def computed : Option (ZMod 256) :=
  match e.opcode with
  | 0 => some (e.operand + 1)
  | 1 => some (e.operand - 1)
  | 5 => some (if i.valid then (i.bits : ZMod 256) else e.operand)
  | _ => none

/-- The data memory to which the value is committed. -/
def committed : ZMod cells → ZMod 256 :=
  match e.computed i with
  | some value => Function.update e.data e.dp value
  | none => e.data

/-- Whether the operation waits for a channel. -/
def waits : Bool := (e.opcode == 4 && !i.ready) || (e.opcode == 5 && !i.valid)

/-- Where the instruction pointer advances to. -/
def nextIp : ZMod words :=
  if e.waits i then e.ip
  else
    match e.opcode with
    | 6 => if e.operand = 0 then e.ip + 1 + e.literal else e.ip + 2
    | 7 => e.ip + 1 - e.literal
    | _ => e.ip + 1

/-- Where the data pointer advances to. -/
def nextDp : ZMod cells :=
  match e.opcode with
  | 2 => e.dp + 1
  | 3 => e.dp - 1
  | _ => e.dp

/-- A clock in run mode. -/
def execute : Engine words cells := ⟨e.code, e.committed i, e.nextIp i, e.nextDp⟩

/-- What a bus writes to a memory in load mode. -/
def load {n : ℕ} (cells : ZMod n → ZMod 256) (bus : LoadBus) : ZMod n → ZMod 256 :=
  if bus.valid then Function.update cells (bus.address : ZMod n) (bus.bits : ZMod 256) else cells

/-- A clock in load mode, under reset, or both. -/
def hold : Engine words cells where
  code := if i.init then load e.code i.codeBus else e.code
  data := if i.init then load e.data i.dataBus else e.data
  ip := if i.boot then 0 else e.ip
  dp := if i.boot then 0 else e.dp

/-- One clock. -/
def clock : Engine words cells := if i.holds then e.hold i else e.execute i

/-- Whether an instruction retires on the clock. -/
def retires : Bool := !i.holds && !e.waits i

end Engine

/-! ### Bytes and addresses -/

namespace Bits

/-- The low byte of an integer is its residue. -/
theorem natCast_toByte (x : Int) : ((toByte x).toNat : ZMod 256) = (x : ZMod 256) := by
  have h := congrArg (Int.cast : Int → ZMod 256) (toNat_toByte x)
  rwa [Int.cast_natCast, show (256 : Int) = ((256 : ℕ) : Int) from rfl, ZMod.intCast_mod] at h

/-- Counting a byte up is adding one to its residue. -/
theorem natCast_add_one (byte : UInt8) : ((byte + 1).toNat : ZMod 256) = byte.toNat + 1 := by
  rw [UInt8.toNat_add, show 2 ^ 8 = 256 from rfl, ZMod.natCast_mod, Nat.cast_add]
  rfl

/-- Counting it down is taking one away. -/
theorem natCast_sub_one (byte : UInt8) : ((byte - 1).toNat : ZMod 256) = byte.toNat - 1 := by
  -- a byte that is counted down and up again is as before
  have h := natCast_add_one (byte - 1)
  rw [UInt8.sub_add_cancel] at h
  rw [h, add_sub_cancel_right]

/-- A byte is zero if its residue is. -/
theorem natCast_eq_zero_iff (byte : UInt8) : (byte.toNat : ZMod 256) = 0 ↔ byte = 0 := by
  rw [ZMod.natCast_eq_zero_iff, Nat.dvd_iff_mod_eq_zero, Nat.mod_eq_of_lt byte.toNat_lt,
    ← UInt8.toNat_inj]
  rfl

theorem val_natCast (byte : UInt8) : ((byte.toNat : ZMod 256)).val = byte.toNat :=
  ZMod.val_natCast_of_lt byte.toNat_lt

end Bits

namespace Memory

variable {m : Memory} {n : ℕ}

/-- The memory as a cycle of `n` bytes. -/
def cycle (m : Memory) (n : ℕ) (i : ZMod n) : ZMod 256 := (m.read i.val).toNat

/-- The residue of an integer names the byte at the wrapped address. -/
theorem cycle_intCast (h : m.size = n) (address : Int) :
    m.cycle n (address : ZMod n) = (m.read (m.wrap address)).toNat := by
  subst h
  rw [cycle, ← natCast_wrap, ZMod.val_natCast_of_lt (m.wrap_lt address)]

theorem cycle_natCast (m : Memory) {address : ℕ} (h : address < n) :
    m.cycle n (address : ZMod n) = (m.read address).toNat := by
  rw [cycle, ZMod.val_natCast_of_lt h]

/-- **Writing at a wrapped address** is an update at the address itself. -/
theorem cycle_write (h : m.size = n) (address : Int) (byte : UInt8) :
    (m.write (m.wrap address) byte).cycle n
      = Function.update (m.cycle n) (address : ZMod n) (byte.toNat : ZMod 256) := by
  subst h
  have : NeZero m.size := ⟨Nat.ne_of_gt m.size_pos⟩
  funext i
  -- two addresses are the same if they have the same representative
  have h_same : i.val = m.wrap address ↔ i = (address : ZMod m.size) := by
    rw [← natCast_wrap, ← (ZMod.val_injective m.size).eq_iff,
      ZMod.val_natCast_of_lt (m.wrap_lt address)]
  rw [cycle, read_write m (m.wrap_lt address), Function.update_apply]
  by_cases h_i : i = (address : ZMod m.size)
  · rw [if_pos (h_same.mpr h_i), if_pos h_i]
  · rw [if_neg (h_same.not.mpr h_i), if_neg h_i]
    rfl

/-- What a bus asks for is what the engine loads. -/
theorem cycle_apply_write? (h : m.size = n) (bus : LoadBus) :
    (m.apply (bus.write? m)).cycle n = Engine.load (m.cycle n) bus := by
  unfold LoadBus.write? Engine.load
  cases bus.valid with
  | false => rfl
  | true =>
    rw [if_pos rfl, if_pos rfl, apply, cycle_write h, Bits.natCast_toByte]

/-- Two memories of a size are equal if their cycles are. -/
theorem eq_of_cycle_eq {m' : Memory} (h : m.size = n) (h' : m'.size = n)
    (h_cycle : m.cycle n = m'.cycle n) : m = m' := by
  refine eq_of_read_eq (h.trans h'.symm) fun a h_a => ?_
  have h_lt : a < n := h ▸ h_a
  -- each byte is found in its residue again
  have h_byte := congrFun h_cycle (a : ZMod n)
  rw [cycle_natCast m h_lt, cycle_natCast m' h_lt] at h_byte
  have h_read := congrArg ZMod.val h_byte
  rwa [Bits.val_natCast, Bits.val_natCast, UInt8.toNat_inj] at h_read

end Memory

namespace Core

/-! ### A core as an engine -/

/-- The core as an engine with so many words and cells. -/
def engine (c : Core) (words cells : ℕ) : Engine words cells :=
  ⟨c.code.cycle words, c.data.cycle cells, c.ip, c.dp⟩

/-- The core has so many words and cells, and its pointers are in them. -/
structure Spans (c : Core) (words cells : ℕ) : Prop where
  code_size : c.code.size = words
  data_size : c.data.size = cells
  ip_lt : c.ip < words
  dp_lt : c.dp < cells

namespace Spans

variable {c d : Core} {words cells : ℕ}

/-- A commit wraps both pointers, so the core stays in range. -/
theorem commit (h : c.Spans words cells) (p : Plan) : (c.commit p).Spans words cells := by
  refine ⟨?_, ?_, ?_, ?_⟩
  · rw [code_commit, Memory.size_apply, h.code_size]
  · rw [data_commit, Memory.size_apply, h.data_size]
  · rw [ip_commit, ← h.code_size]
    exact c.code.wrap_lt _
  · rw [dp_commit, ← h.data_size]
    exact c.data.wrap_lt _

/-- **A core in range is determined by its engine.** -/
theorem eq_of_engine_eq (h : c.Spans words cells) (h' : d.Spans words cells)
    (h_engine : c.engine words cells = d.engine words cells) :
    c.code = d.code ∧ c.data = d.data ∧ c.ip = d.ip ∧ c.dp = d.dp := by
  obtain ⟨h_code, h_data, h_ip, h_dp⟩ := Engine.mk.inj h_engine
  refine ⟨Memory.eq_of_cycle_eq h.code_size h'.code_size h_code,
    Memory.eq_of_cycle_eq h.data_size h'.data_size h_data, ?_, ?_⟩
  · have h_val := congrArg ZMod.val h_ip
    rwa [ZMod.val_natCast_of_lt h.ip_lt, ZMod.val_natCast_of_lt h'.ip_lt] at h_val
  · have h_val := congrArg ZMod.val h_dp
    rwa [ZMod.val_natCast_of_lt h.dp_lt, ZMod.val_natCast_of_lt h'.dp_lt] at h_val

/-! ### What is fetched and read -/

/-- The engine fetches the operation that the core runs. -/
theorem opcode_engine (h : c.Spans words cells) :
    (c.engine words cells).opcode = c.opcode.code := by
  have h_code : ∀ k < 8, (Opcode.ofCode k).code = k := by decide
  -- the word at the pointer, of which the low three bits are the code
  have h_word : (c.engine words cells).code (c.engine words cells).ip
      = (c.instruction.toNat : ZMod 256) := c.code.cycle_natCast h.ip_lt
  rw [Engine.opcode, h_word, Bits.val_natCast, Core.opcode, Opcode.ofWord_eq_ofCode,
    h_code _ (Nat.mod_lt _ (by decide))]

/-- It fetches the distance with it. -/
theorem literal_engine (h : c.Spans words cells) :
    (c.engine words cells).literal = c.distance.toNat := by
  have h_address : (c.engine words cells).ip + 1 = (((c.ip : Int) + 1 : Int) : ZMod words) := by
    push_cast
    rfl
  have h_word : (c.engine words cells).code ((c.engine words cells).ip + 1)
      = (c.distance.toNat : ZMod 256) := by
    rw [h_address]
    exact Memory.cycle_intCast h.code_size _
  rw [Engine.literal, h_word, Bits.val_natCast]

/-- It reads the current cell. -/
theorem operand_engine (h : c.Spans words cells) :
    (c.engine words cells).operand = (c.cell.toNat : ZMod 256) :=
  c.data.cycle_natCast h.dp_lt

/-! ### What a plan leaves -/

/-- **A plan seen through the engine.** -/
theorem engine_commit (h : c.Spans words cells) (p : Plan) :
    (c.commit p).engine words cells
      = ⟨(c.code.apply p.codeWrite).cycle words, (c.data.apply p.dataWrite).cycle cells,
          (p.ip : ZMod words), (p.dp : ZMod cells)⟩ := by
  obtain ⟨rfl, rfl, -, -⟩ := h
  refine Engine.ext rfl rfl ?_ ?_
  · exact c.code.natCast_wrap p.ip
  · exact c.data.natCast_wrap p.dp

/-- A write under the data pointer. -/
theorem cycle_write_dp (h : c.Spans words cells) (byte : UInt8) :
    (c.data.apply (some (c.dp, byte))).cycle cells
      = Function.update (c.data.cycle cells) (c.dp : ZMod cells) (byte.toNat : ZMod 256) := by
  have h_write := Memory.cycle_write h.data_size (c.dp : Int) byte
  rwa [c.data.wrap_natCast_of_lt (h.data_size ▸ h.dp_lt), Int.cast_natCast] at h_write

/-! ### The phases -/

/-- **An instruction waits** where the engine does. -/
theorem waits_engine (h : c.Spans words cells) :
    (c.engine words cells).waits c.inputs = (c.execute.verdict == .stalled) := by
  rw [Engine.waits, h.opcode_engine]
  -- a channel decides only where the operation is one on the channel
  cases c.course with
  | inc h_op h_plan | dec h_op h_plan | right h_op h_plan | left h_op h_plan
  | returns h_op h_plan =>
    rw [h_op, h_plan]
    rfl
  | skips h_op _ h_plan | enters h_op _ h_plan =>
    rw [h_op, h_plan]
    rfl
  | sends h_op h_ready h_plan | holdsBack h_op h_ready h_plan =>
    rw [h_op, h_plan, inputs, h_ready]
    rfl
  | takes h_op h_valid h_plan | asks h_op h_valid h_plan =>
    rw [h_op, h_plan, inputs, h_valid]
    rfl

/-- **The value that is committed.** -/
theorem committed_engine (h : c.Spans words cells) :
    (c.engine words cells).committed c.inputs = (c.data.apply c.execute.dataWrite).cycle cells := by
  have h_operand := h.operand_engine
  rw [Engine.committed, Engine.computed, h.opcode_engine]
  cases c.course with
  | inc h_op h_plan =>
    rw [h_op, h_plan]
    change Function.update (c.data.cycle cells) (c.dp : ZMod cells)
      ((c.engine words cells).operand + 1) = _
    rw [h_operand, ← Bits.natCast_add_one]
    exact (h.cycle_write_dp _).symm
  | dec h_op h_plan =>
    rw [h_op, h_plan]
    change Function.update (c.data.cycle cells) (c.dp : ZMod cells)
      ((c.engine words cells).operand - 1) = _
    rw [h_operand, ← Bits.natCast_sub_one]
    exact (h.cycle_write_dp _).symm
  | takes h_op h_valid h_plan =>
    rw [h_op, h_plan, inputs, h_valid]
    change Function.update (c.data.cycle cells) (c.dp : ZMod cells)
      (c.link.input.bits : ZMod 256) = _
    rw [← Bits.natCast_toByte]
    exact (h.cycle_write_dp _).symm
  | asks h_op h_valid h_plan =>
    -- the engine commits the cell as it was, where the core writes nothing
    rw [h_op, h_plan, inputs, h_valid]
    exact Function.update_eq_self _ _
  | right h_op h_plan | left h_op h_plan | returns h_op h_plan =>
    rw [h_op, h_plan]
    rfl
  | sends h_op _ h_plan | holdsBack h_op _ h_plan | skips h_op _ h_plan | enters h_op _ h_plan =>
    rw [h_op, h_plan]
    rfl

/-- **Where the instruction pointer goes.** -/
theorem nextIp_engine (h : c.Spans words cells) :
    (c.engine words cells).nextIp c.inputs = (c.execute.ip : ZMod words) := by
  -- what the core adds before it wraps, the engine adds to the residue
  have h_next : (((c.ip : Int) + 1 : Int) : ZMod words) = (c.ip : ZMod words) + 1 := by
    push_cast
    rfl
  rw [Engine.nextIp, h.waits_engine, h.opcode_engine, h.operand_engine, h.literal_engine]
  cases c.course with
  | inc h_op h_plan | dec h_op h_plan | right h_op h_plan | left h_op h_plan =>
    rw [h_op, h_plan]
    exact h_next.symm
  | sends h_op _ h_plan | takes h_op _ h_plan =>
    rw [h_op, h_plan]
    exact h_next.symm
  | holdsBack h_op _ h_plan | asks h_op _ h_plan =>
    rw [h_plan]
    exact (Int.cast_natCast c.ip).symm
  | skips h_op h_cell h_plan =>
    rw [h_op, h_plan]
    change (if _ then _ else _) = (((c.ip : Int) + 1 + c.distance.toNat : Int) : ZMod words)
    rw [if_pos ((Bits.natCast_eq_zero_iff _).mpr h_cell)]
    push_cast
    rfl
  | enters h_op h_cell h_plan =>
    rw [h_op, h_plan]
    change (if _ then _ else _) = (((c.ip : Int) + 2 : Int) : ZMod words)
    rw [if_neg ((Bits.natCast_eq_zero_iff _).not.mpr h_cell)]
    push_cast
    rfl
  | returns h_op h_plan =>
    rw [h_op, h_plan]
    change _ = (((c.ip : Int) + 1 - c.distance.toNat : Int) : ZMod words)
    push_cast
    rfl

/-- **Where the data pointer goes.** -/
theorem nextDp_engine (h : c.Spans words cells) :
    (c.engine words cells).nextDp = (c.execute.dp : ZMod cells) := by
  rw [Engine.nextDp, h.opcode_engine]
  cases c.course with
  | right h_op h_plan =>
    rw [h_op, h_plan]
    change _ = (((c.dp : Int) + 1 : Int) : ZMod cells)
    push_cast
    rfl
  | left h_op h_plan =>
    rw [h_op, h_plan]
    change _ = (((c.dp : Int) - 1 : Int) : ZMod cells)
    push_cast
    rfl
  | inc h_op h_plan | dec h_op h_plan | returns h_op h_plan =>
    rw [h_op, h_plan]
    exact (Int.cast_natCast c.dp).symm
  | sends h_op _ h_plan | holdsBack h_op _ h_plan | takes h_op _ h_plan | asks h_op _ h_plan
  | skips h_op _ h_plan | enters h_op _ h_plan =>
    rw [h_op, h_plan]
    exact (Int.cast_natCast c.dp).symm

/-- **A core that runs an instruction** goes through the phases of the engine. -/
theorem engine_execute (h : c.Spans words cells) :
    (c.commit c.execute).engine words cells = (c.engine words cells).execute c.inputs := by
  have h_code : c.execute.codeWrite = none := c.confined_execute.codeWrite
  rw [h.engine_commit, h_code, ← h.committed_engine, ← h.nextIp_engine, ← h.nextDp_engine]
  rfl

/-- **A held core is held as the engine is.** -/
theorem engine_hold (h : c.Spans words cells) :
    (c.commit c.hold).engine words cells = (c.engine words cells).hold c.inputs := by
  rw [h.engine_commit]
  -- memory by memory and pointer by pointer
  refine Engine.ext ?_ ?_ ?_ ?_
  · change (c.code.apply (if c.init then _ else none)).cycle words
      = if c.init then Engine.load (c.code.cycle words) c.codeBus else c.code.cycle words
    cases c.init with
    | false => rfl
    | true => exact Memory.cycle_apply_write? h.code_size c.codeBus
  · change (c.data.apply (if c.init then _ else none)).cycle cells
      = if c.init then Engine.load (c.data.cycle cells) c.dataBus else c.data.cycle cells
    cases c.init with
    | false => rfl
    | true => exact Memory.cycle_apply_write? h.data_size c.dataBus
  · change ((if c.boot then 0 else (c.ip : Int) : Int) : ZMod words)
      = if c.boot then 0 else (c.ip : ZMod words)
    cases c.boot <;> simp
  · change ((if c.boot then 0 else (c.dp : Int) : Int) : ZMod cells)
      = if c.boot then 0 else (c.dp : ZMod cells)
    cases c.boot <;> simp

/-! ### The clock -/

/-- **A clock of the core** is a clock of the engine. -/
theorem engine_step (h : c.Spans words cells) :
    c.step.2.engine words cells = (c.engine words cells).clock c.inputs := by
  rw [step_snd, Engine.clock]
  rcases c.plan_cases with ⟨h_held, h_plan⟩ | ⟨h_free, h_plan⟩
  · rw [h_plan, if_pos (c.holds_inputs_iff.mpr h_held)]
    exact h.engine_hold
  · rw [h_plan, if_neg (c.holds_inputs_iff.not.mpr h_free)]
    exact h.engine_execute

/-- **What the core answers** is whether the engine retires. -/
theorem retires_engine (h : c.Spans words cells) :
    c.step.1 = (c.engine words cells).retires c.inputs := by
  rw [step_fst, Engine.retires, h.waits_engine]
  rcases c.plan_cases with ⟨h_held, h_plan⟩ | ⟨h_free, h_plan⟩
  · rw [h_plan, c.holds_inputs_iff.mpr h_held]
    rfl
  · -- an instruction retires or stalls, and the engine knows which
    have h_verdict := c.confined_execute.verdict
    rw [h_plan, Bool.eq_false_iff.mpr (c.holds_inputs_iff.not.mpr h_free)]
    cases h_execute : c.execute.verdict with
    | held => exact absurd h_execute h_verdict
    | retired | stalled => rfl

end Spans

/-! ### What a clock leaves alone -/

variable {c : Core}

/-- An instruction changes no cell but the current one. -/
theorem read_step_of_ne (h : ¬ c.Held) (h_dp : c.dp < c.data.size) {a : ℕ} (h_a : a ≠ c.dp) :
    c.step.2.data.read a = c.data.read a := by
  have h_plan := plan_of_not_held h
  rw [step_snd, data_commit, h_plan]
  -- if a cell is written at all, it is the one under the pointer
  cases h_write : c.execute.dataWrite with
  | none => rfl
  | some write =>
    obtain ⟨address, byte⟩ := write
    obtain ⟨rfl, -⟩ := c.confined_execute.dataWrite _ h_write
    rw [Memory.apply, Memory.read_write _ h_dp, if_neg h_a]

/-- Only three instructions change data memory. -/
theorem opcode_of_data_step_ne (h : ¬ c.Held) (h_data : c.step.2.data ≠ c.data) :
    c.opcode = .plain .inc ∨ c.opcode = .plain .dec ∨
      (c.opcode = .plain .get ∧ c.link.input.valid = true) := by
  have h_plan := plan_of_not_held h
  rw [step_snd, data_commit, h_plan] at h_data
  cases c.course with
  | inc h_op => exact Or.inl h_op
  | dec h_op => exact Or.inr (Or.inl h_op)
  | takes h_op h_valid => exact Or.inr (Or.inr ⟨h_op, h_valid⟩)
  -- all others have no write in their plans
  | right _ h_plan | left _ h_plan | returns _ h_plan =>
    rw [h_plan] at h_data
    exact absurd rfl h_data
  | sends _ _ h_plan | holdsBack _ _ h_plan | asks _ _ h_plan | skips _ _ h_plan
  | enters _ _ h_plan =>
    rw [h_plan] at h_data
    exact absurd rfl h_data

/-! ### The statement -/

/-- **A clock goes through five phases.** Take any core whose pointers are in range, and
anything that can be given to it.

* The clock leaves the core that the engine specifies, which is in range again and is
  the only core in range that the engine has as its next state. It answers whether an
  instruction retires in the engine, and leaves what it was given.
* An instruction runs exactly if neither control line is high.
* Code memory is not written unless load mode is on. An instruction changes no cell but
  the current one, and that only if it counts the cell or stores a byte that is offered. -/
theorem step_refines_phases {words cells : ℕ} (h : c.Spans words cells) (i : Inputs) :
    let next := (c.engine words cells).clock i
    let c' := (c.given i).step.2
    (c'.engine words cells = next ∧ c'.Spans words cells ∧
      ∀ d : Core, d.Spans words cells → d.engine words cells = next →
        d.code = c'.code ∧ d.data = c'.data ∧ d.ip = c'.ip ∧ d.dp = c'.dp) ∧
    (c.given i).step.1 = (c.engine words cells).retires i ∧ c'.inputs = i ∧
    ((c.given i).Executes ↔ i.init = false ∧ i.boot = false) ∧
    (i.init = false → c'.code = c.code) ∧
    (i.init = false → i.boot = false →
      (∀ a, a ≠ c.dp → c'.data.read a = c.data.read a) ∧
      (c'.data ≠ c.data → c.opcode = .plain .inc ∨ c.opcode = .plain .dec ∨
        (c.opcode = .plain .get ∧ i.valid = true))) := by
  intro next c'
  -- being in range does not depend on what is given
  have h_given : (c.given i).Spans words cells := ⟨h.code_size, h.data_size, h.ip_lt, h.dp_lt⟩
  have h_engine : c'.engine words cells = next := h_given.engine_step
  have h_spans : c'.Spans words cells := h_given.commit _
  have h_free : (c.given i).Held ↔ ¬ (i.init = false ∧ i.boot = false) := by
    rw [Held, not_and_or, Bool.not_eq_false, Bool.not_eq_false]
    rfl
  refine ⟨⟨h_engine, h_spans, fun d h_d h_next => ?_⟩, h_given.retires_engine, rfl, ?_, ?_, ?_⟩
  · exact h_d.eq_of_engine_eq h_spans (h_next.trans h_engine.symm)
  · rw [executes_iff, h_free, not_not]
  · exact fun h_init => code_step_of_not_init (c := c.given i) h_init
  · intro h_init h_boot
    have h_runs : ¬ (c.given i).Held := fun h_held => h_free.mp h_held ⟨h_init, h_boot⟩
    exact ⟨fun a h_a => read_step_of_ne h_runs (h.data_size ▸ h.dp_lt) h_a,
      opcode_of_data_step_ne h_runs⟩

/-- A core at a jump back over 200 words, in a code memory of four words, with a bit
set in the word that does not matter. -/
def backwardCore : Core :=
  { new ⟨⟨2, Nat.zero_lt_two⟩, ⟨1, Nat.zero_lt_one⟩⟩ with
    code := (Memory.zeros ⟨2, Nat.zero_lt_two⟩).store 3 [0xFF, 200]
    ip := 3 }

/-- The jump goes fifty times round code memory: from address 3 to 3 + 1 - 200. -/
theorem step_refines_phases_backward :
    let i : Inputs := ⟨false, false, .offering 7 7, .idle, false, true, -1⟩
    backwardCore.Spans 4 2 ∧
      (backwardCore.given i).step.2.engine 4 2 = (backwardCore.engine 4 2).clock i ∧
      (backwardCore.given i).step.2.ip = 0 ∧
      (backwardCore.given i).step.2.code = backwardCore.code := by
  intro i
  have h_spans : backwardCore.Spans 4 2 := ⟨by decide, by decide, by decide, by decide⟩
  obtain ⟨⟨h_engine, -, -⟩, -, -, -, h_code, -⟩ := step_refines_phases h_spans i
  exact ⟨h_spans, h_engine, by decide, h_code rfl⟩

end Core

end TapeProcessor
