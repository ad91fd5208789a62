import TapeProcessor.Proofs.Board.Loading
import TapeProcessor.Proofs.Core.Course

/-!
# What a clock reads and writes

A clock either runs an instruction or holds the core (`Core.executes_iff`). An
instruction is confined (`Core.confined_execute`): it never writes code memory, and
data memory only under the data pointer. A held core writes what the buses ask for.

`Core.Guarded` collects every access that the next clock makes to a memory: the words
it reads and the addresses it writes are there, and each byte it writes is a remainder
modulo 256 of the integer it comes from, however large that is. A core whose pointers
are in range is guarded (`Core.guarded`), whatever is on its buses and its link.
-/

namespace TapeProcessor

/-- What the plan of an instruction keeps to. -/
structure Plan.Confined (p : Plan) (c : Core) : Prop where
  verdict : p.verdict ≠ .held
  codeWrite : p.codeWrite = none
  dataWrite : ∀ write ∈ p.dataWrite, write.1 = c.dp ∧
    (write.2 = c.cell + 1 ∨ write.2 = c.cell - 1 ∨ write.2 = Bits.toByte c.link.input.bits)

namespace Core

variable (c : Core)

/-! ### Instructions -/

/-- **Instructions are confined.** -/
theorem confined_execute : c.execute.Confined c := by
  -- a plan that writes nothing is confined
  have h_quiet : ∀ p : Plan, c.execute = p → p.verdict ≠ .held → p.codeWrite = none →
      p.dataWrite = none → c.execute.Confined c := by
    rintro p rfl h_verdict h_code h_data
    exact ⟨h_verdict, h_code, fun write h => by rw [h_data] at h; cases h⟩
  -- three courses write, and the cell under the data pointer is where they do
  cases c.course with
  | inc _ h_plan =>
    rw [h_plan]
    refine ⟨by simp [advance], rfl, ?_⟩
    rintro _ ⟨⟩
    exact ⟨rfl, Or.inl rfl⟩
  | dec _ h_plan =>
    rw [h_plan]
    refine ⟨by simp [advance], rfl, ?_⟩
    rintro _ ⟨⟩
    exact ⟨rfl, Or.inr (Or.inl rfl)⟩
  | takes _ _ h_plan =>
    rw [h_plan]
    refine ⟨by simp [advance], rfl, ?_⟩
    rintro _ ⟨⟩
    exact ⟨rfl, Or.inr (Or.inr rfl)⟩
  | right _ h_plan | left _ h_plan | returns _ h_plan =>
    exact h_quiet _ h_plan (by simp [advance]) rfl rfl
  | sends _ _ h_plan | skips _ _ h_plan | enters _ _ h_plan =>
    exact h_quiet _ h_plan (by simp [advance]) rfl rfl
  | holdsBack _ _ h_plan | asks _ _ h_plan => exact h_quiet _ h_plan (by simp [stall]) rfl rfl

/-- On its next clock the core runs an instruction, which retires or waits. -/
def Executes : Prop := c.plan.verdict ≠ .held

instance : Decidable c.Executes := inferInstanceAs (Decidable (c.plan.verdict ≠ .held))

/-- A core that is not held has the plan of its instruction. -/
theorem plan_of_not_held {c : Core} (h : ¬ c.Held) : c.plan = c.execute :=
  if_neg fun h_or => h (Bool.or_eq_true_iff.mp h_or)

/-- **A core that is not held runs an instruction.** -/
theorem executes_iff : c.Executes ↔ ¬ c.Held := by
  constructor
  · intro h_executes h_held
    rw [Executes, h_held.plan_eq] at h_executes
    exact h_executes rfl
  · intro h_free
    rw [Executes, plan_of_not_held h_free]
    exact c.confined_execute.verdict

/-- The plan of a clock is that of a held core, or of an instruction. -/
theorem plan_cases : (c.Held ∧ c.plan = c.hold) ∨ (¬ c.Held ∧ c.plan = c.execute) := by
  by_cases h : c.Held
  · exact Or.inl ⟨h, h.plan_eq⟩
  · exact Or.inr ⟨h, plan_of_not_held h⟩

/-- Whether a core is held can be seen from its inputs. -/
theorem holds_inputs_iff : c.inputs.holds = true ↔ c.Held := Bool.or_eq_true_iff

/-- Out of load mode no clock writes code memory. -/
theorem code_step_of_not_init {c : Core} (h : c.init = false) : c.step.2.code = c.code := by
  have h_none : c.plan.codeWrite = none := by
    -- a held core writes what the buses ask for only in load mode
    rcases c.plan_cases with ⟨-, h_plan⟩ | ⟨-, h_plan⟩
    · rw [h_plan, hold, h]
      rfl
    · rw [h_plan, c.confined_execute.codeWrite]
  rw [step_snd, code_commit, h_none]
  rfl

/-! ### Accesses -/

/-- Every access of the next clock to a memory is to an address that the memory has,
and the bytes written are remainders modulo 256. -/
structure Guarded : Prop where
  /-- The words that are fetched. -/
  fetch : c.ip < c.code.size
  distance : c.code.wrap (c.ip + 1) < c.code.size
  /-- The cell that is read. -/
  cell : c.dp < c.data.size
  codeWrite : ∀ write ∈ c.plan.codeWrite,
    write.1 < c.code.size ∧ (write.2.toNat : Int) = c.codeBus.bits % 256
  dataWrite : ∀ write ∈ c.plan.dataWrite,
    write.1 < c.data.size ∧
      ((write.2.toNat : Int) = c.dataBus.bits % 256 ∨
        (write.2.toNat : Int) = ((c.cell.toNat : Int) + 1) % 256 ∨
        (write.2.toNat : Int) = ((c.cell.toNat : Int) - 1) % 256 ∨
        (write.2.toNat : Int) = c.link.input.bits % 256)

/-- What a bus asks for is in range, whatever integers are on it. -/
theorem write?_range {bus : LoadBus} {m : Memory} {write : Nat × UInt8}
    (h : write ∈ bus.write? m) : write.1 < m.size ∧ (write.2.toNat : Int) = bus.bits % 256 := by
  unfold LoadBus.write? at h
  split at h
  · obtain rfl := Option.some.inj h
    exact ⟨m.wrap_lt _, Bits.toNat_toByte _⟩
  · cases h

variable {c}

/-- **Accesses are in range** while the pointers are. -/
theorem guarded (h_ip : c.ip < c.code.size) (h_dp : c.dp < c.data.size) : c.Guarded := by
  refine ⟨h_ip, c.code.wrap_lt _, h_dp, fun write h => ?_, fun write h => ?_⟩
  · rcases c.plan_cases with ⟨-, h_plan⟩ | ⟨-, h_plan⟩
    · rw [h_plan, hold] at h
      dsimp only at h
      split at h
      · exact write?_range h
      · cases h
    · rw [h_plan, c.confined_execute.codeWrite] at h
      cases h
  · -- data is written from the bus, or by one of the three instructions that write
    rcases c.plan_cases with ⟨-, h_plan⟩ | ⟨-, h_plan⟩
    · rw [h_plan, hold] at h
      dsimp only at h
      split at h
      · obtain ⟨h_lt, h_byte⟩ := write?_range h
        exact ⟨h_lt, Or.inl h_byte⟩
      · cases h
    · rw [h_plan] at h
      obtain ⟨h_dp', h_byte⟩ := c.confined_execute.dataWrite write h
      refine ⟨h_dp' ▸ h_dp, Or.inr ?_⟩
      have h_cell := c.cell.toNat_lt
      -- each of the three bytes is a remainder of the integer that it stands for
      rcases h_byte with h_byte | h_byte | h_byte
      · refine Or.inl ?_
        rw [h_byte, UInt8.toNat_add]
        exact Int.natCast_emod _ _
      · refine Or.inr (Or.inl ?_)
        rw [h_byte, UInt8.toNat_sub]
        change (((256 - 1 + c.cell.toNat) % 256 : Nat) : Int) = _
        omega
      · refine Or.inr (Or.inr ?_)
        rw [h_byte]
        exact Bits.toNat_toByte _

end Core

end TapeProcessor
