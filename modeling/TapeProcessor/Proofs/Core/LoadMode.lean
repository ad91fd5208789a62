import Mathlib.Data.Int.ModEq
import TapeProcessor.Proofs.Board.Writing

/-!
# Load mode under any loader

In load mode a loader from outside drives both buses and the reset line, anew on each clock
and with integers of any size. This file says what a row of such clocks leaves, whatever was
driven: in each memory the last write to an address wins, where addresses are the same if
they are congruent modulo the size of the memory.

* `LoadClock` is what the loader drives on one clock; `Core.loadFor` is a row of clocks.
* `Memory.accept` is what a clock does to one memory. It depends on the bus of that memory
  alone, so the memories are two independent rows of writes (`Core.memory_loadFor`), and a
  write is known by the bytes that are read afterwards (`Memory.read_accept`).
* `Core.SameContents` is what a loader sees of a core: both memories and both pointers.

The pointers follow the reset line alone (`Core.ip_loadFor`): one clock with a reset puts
them to zero for good, since the address zero wraps to itself.
-/

namespace TapeProcessor

/-- What a loader drives on a clock in load mode: the two buses and the reset line. -/
structure LoadClock where
  codeBus : LoadBus
  dataBus : LoadBus
  boot : Bool
  deriving DecidableEq, Repr

/-- The bus of a memory. -/
def LoadClock.bus (x : LoadClock) : Bank → LoadBus
  | .code => x.codeBus
  | .data => x.dataBus

/-- The bus offers a byte for an address of a memory of so many words. -/
def LoadBus.Names (bus : LoadBus) (size address : ℕ) : Prop :=
  bus.valid = true ∧ bus.address ≡ address [ZMOD size]

instance (bus : LoadBus) (size address : ℕ) : Decidable (bus.Names size address) :=
  inferInstanceAs (Decidable (_ ∧ _))

/-- The two buses do not offer bytes for one address of a memory of so many words. -/
def LoadBus.Apart (bus other : LoadBus) (size : ℕ) : Prop :=
  bus.valid = true → other.valid = true → ¬ bus.address ≡ other.address [ZMOD size]

/-! ### One memory -/

namespace Memory

variable (m : Memory) (bus : LoadBus)

/-- The memory after a clock in load mode on which its bus is driven like this. -/
def accept (m : Memory) (bus : LoadBus) : Memory := m.apply (bus.write? m)

@[simp] theorem size_accept : (m.accept bus).size = m.size := m.size_apply _

/-- A bus that offers nothing leaves its memory alone. -/
theorem accept_of_not_valid {bus : LoadBus} (h : bus.valid = false) : m.accept bus = m := by
  rw [accept, LoadBus.write?_idle h]
  rfl

/-- An integer names the address to which it is congruent. -/
theorem wrap_eq_iff {address : ℤ} {a : ℕ} (h : a < m.size) :
    m.wrap address = a ↔ address ≡ a [ZMOD m.size] := by
  have h_wrap := m.wrap_eq_emod address
  -- an address is its own remainder
  have h_small : (a : ℤ) % m.size = a := Int.emod_eq_of_lt (by omega) (by omega)
  rw [Int.ModEq, h_small, ← h_wrap]
  exact Int.natCast_inj.symm

/-- **A clock changes the byte that is named**, and no other. -/
theorem read_accept {a : ℕ} (h : a < m.size) :
    (m.accept bus).read a = if bus.Names m.size a then Bits.toByte bus.bits else m.read a := by
  cases h_valid : bus.valid with
  | false =>
    have h_none : ¬ bus.Names m.size a := fun h_names => by
      rw [LoadBus.Names, h_valid] at h_names
      cases h_names.1
    rw [m.accept_of_not_valid h_valid, if_neg h_none]
  | true =>
    -- the address that is named is the one that the integer wraps to
    have h_names : bus.Names m.size a ↔ a = m.wrap bus.address := by
      rw [LoadBus.Names, ← m.wrap_eq_iff h]
      exact (and_iff_right h_valid).trans eq_comm
    rw [accept, LoadBus.write?, if_pos h_valid, apply, m.read_write (m.wrap_lt _)]
    exact if_congr h_names.symm rfl rfl

/-- **Writes to different addresses commute.** -/
theorem accept_comm {bus other : LoadBus} (h : bus.Apart other m.size) :
    (m.accept bus).accept other = (m.accept other).accept bus := by
  -- bytes are compared, since the arrays are built in different orders
  refine eq_of_read_eq (by simp) fun a h_a => ?_
  simp only [size_accept] at h_a
  have h_first : a < (m.accept bus).size := by rwa [size_accept]
  have h_second : a < (m.accept other).size := by rwa [size_accept]
  rw [read_accept _ _ h_first, read_accept _ _ h_a, read_accept _ _ h_second, read_accept _ _ h_a,
    size_accept, size_accept]
  -- no address is named by both
  by_cases h_bus : bus.Names m.size a
  · have h_other : ¬ other.Names m.size a := fun h_names =>
      h h_bus.1 h_names.1 (h_bus.2.trans h_names.2.symm)
    rw [if_neg h_other, if_pos h_bus, if_pos h_bus]
  · rw [if_neg h_bus, if_neg h_bus]

/-- The memory after a row of clocks. -/
def acceptAll (m : Memory) (row : List LoadBus) : Memory := row.foldl accept m

/-- No row of clocks changes the size of a memory. -/
theorem size_acceptAll (row : List LoadBus) : (m.acceptAll row).size = m.size := by
  induction row generalizing m with
  | nil => rfl
  | cons bus row ih => exact (ih _).trans (m.size_accept bus)

theorem acceptAll_append (front behind : List LoadBus) :
    m.acceptAll (front ++ behind) = (m.acceptAll front).acceptAll behind := List.foldl_append

/-- A byte that is never named stays as it is. -/
theorem read_acceptAll_of_not_named {a : ℕ} (h : a < m.size) {row : List LoadBus}
    (h_row : ∀ bus ∈ row, ¬ bus.Names m.size a) : (m.acceptAll row).read a = m.read a := by
  induction row generalizing m with
  | nil => rfl
  | cons bus row ih =>
    have h_first : ¬ bus.Names m.size a := h_row bus List.mem_cons_self
    -- the size is the same after the first clock, and so are the addresses that are named
    have h_rest : ∀ other ∈ row, ¬ other.Names (m.accept bus).size a := by
      rw [size_accept]
      exact fun other h_other => h_row other (List.mem_cons_of_mem bus h_other)
    exact (ih _ (by rwa [size_accept]) h_rest).trans ((m.read_accept bus h).trans (if_neg h_first))

/-- **The last writer wins.** -/
theorem read_acceptAll_of_last {a : ℕ} (h : a < m.size) (front : List LoadBus) {bus : LoadBus}
    {behind : List LoadBus} (h_bus : bus.Names m.size a)
    (h_behind : ∀ other ∈ behind, ¬ other.Names m.size a) :
    (m.acceptAll (front ++ bus :: behind)).read a = Bits.toByte bus.bits := by
  have h_front : (m.acceptAll front).size = m.size := m.size_acceptAll front
  have h_size : ((m.acceptAll front).accept bus).size = m.size := by rw [size_accept, h_front]
  calc (m.acceptAll (front ++ bus :: behind)).read a
      = (((m.acceptAll front).accept bus).acceptAll behind).read a := by
        rw [acceptAll_append]
        rfl
    _ = ((m.acceptAll front).accept bus).read a :=
        read_acceptAll_of_not_named _ (by rwa [h_size]) (by rwa [h_size])
    _ = Bits.toByte bus.bits := by
        rw [read_accept _ _ (by rwa [h_front]), h_front, if_pos h_bus]

end Memory

namespace Core

/-! ### One clock -/

/-- The core with these signals driven, in load mode. -/
def driving (c : Core) (x : LoadClock) : Core :=
  { c with init := true, boot := x.boot, codeBus := x.codeBus, dataBus := x.dataBus }

/-- The core after a clock in load mode. -/
def loadStep (c : Core) (x : LoadClock) : Core := (c.driving x).step.2

/-- The core after a row of clocks in load mode. -/
def loadFor (c : Core) (row : List LoadClock) : Core := row.foldl loadStep c

/-- The cores have the same memories and the same pointers. -/
structure SameContents (c d : Core) : Prop where
  memory : ∀ bank, c.memory bank = d.memory bank
  ip : c.ip = d.ip
  dp : c.dp = d.dp

variable (c : Core) (x : LoadClock)

theorem held_driving : (c.driving x).Held := Or.inl rfl

/-- A clock does to each memory what its own bus asks for. -/
theorem memory_loadStep (bank : Bank) :
    (c.loadStep x).memory bank = (c.memory bank).accept (x.bus bank) := by
  have h_init : (c.driving x).init = true := rfl
  have h_step := memory_step_of_init h_init bank
  cases bank <;> exact h_step

/-- The registers and counters see the reset line, and that a clock has passed. -/
theorem standing_loadStep :
    (c.loadStep x).standing = { c.standing with boot := x.boot }.heldFor 1 :=
  standing_step_of_held (c.held_driving x)

theorem ip_loadStep : (c.loadStep x).ip = if x.boot then 0 else c.ip % c.code.size :=
  congrArg Standing.ip (c.standing_loadStep x)

theorem dp_loadStep : (c.loadStep x).dp = if x.boot then 0 else c.dp % c.data.size :=
  congrArg Standing.dp (c.standing_loadStep x)

/-- Nothing retires in load mode. -/
theorem step_fst_driving : (c.driving x).step.1 = false := by
  rw [step_fst, (c.held_driving x).plan_eq]
  rfl

/-! ### A row of clocks -/

/-- A pointer into a memory of so many words after a row of clocks with the reset line like
this: zero if it was high on one of them, and otherwise wrapped. -/
def pointerAfter (size pointer : ℕ) (resets : List Bool) : ℕ :=
  if true ∈ resets then 0 else if resets = [] then pointer else pointer % size

/-- The first clock is on the pointer already: what it leaves is moved by the others. -/
theorem pointerAfter_cons (size pointer : ℕ) (reset : Bool) (resets : List Bool) :
    pointerAfter size (if reset then 0 else pointer % size) resets
      = pointerAfter size pointer (reset :: resets) := by
  cases reset <;> by_cases h : true ∈ resets <;> simp [pointerAfter, h]

/-- Of the reset line it matters only whether it was high, and of the row whether there is a clock.
-/
theorem pointerAfter_congr {size pointer : ℕ} {resets other : List Bool}
    (h_reset : true ∈ resets ↔ true ∈ other) (h_none : resets = [] ↔ other = []) :
    pointerAfter size pointer resets = pointerAfter size pointer other := by
  simp only [pointerAfter, h_reset, h_none]

/-- One reset is enough. -/
theorem pointerAfter_of_reset {resets : List Bool} (h : true ∈ resets) (size pointer : ℕ) :
    pointerAfter size pointer resets = 0 := if_pos h

/-- Without a reset a pointer in range stays where it is. -/
theorem pointerAfter_of_lt {size pointer : ℕ} (h_lt : pointer < size) {resets : List Bool}
    (h : true ∉ resets) : pointerAfter size pointer resets = pointer := by
  rw [pointerAfter, if_neg h, Nat.mod_eq_of_lt h_lt, ite_self]

section Row

variable (row : List LoadClock)

/-- **Each memory follows its own bus.** -/
theorem memory_loadFor (bank : Bank) :
    (c.loadFor row).memory bank = (c.memory bank).acceptAll (row.map (·.bus bank)) := by
  induction row generalizing c with
  | nil => rfl
  | cons x row ih =>
    calc ((c.loadStep x).loadFor row).memory bank
        = ((c.loadStep x).memory bank).acceptAll (row.map (·.bus bank)) := ih _
      _ = ((c.memory bank).accept (x.bus bank)).acceptAll (row.map (·.bus bank)) := by
          rw [memory_loadStep]

/-- The counters, and the sizes of the memories. -/
theorem counters_loadFor :
    (c.loadFor row).cycles = c.cycles + row.length ∧ (c.loadFor row).stalls = c.stalls ∧
      (c.loadFor row).code.size = c.code.size ∧ (c.loadFor row).data.size = c.data.size := by
  induction row generalizing c with
  | nil => exact ⟨rfl, rfl, rfl, rfl⟩
  | cons x row ih =>
    obtain ⟨h_cycles, h_stalls, h_code, h_data⟩ := ih (c.loadStep x)
    have h_standing := c.standing_loadStep x
    have h_first : (c.loadStep x).cycles = c.cycles + 1 := congrArg Standing.cycles h_standing
    refine ⟨?_, h_stalls.trans (congrArg Standing.stalls h_standing),
      h_code.trans (congrArg Standing.codeSize h_standing),
      h_data.trans (congrArg Standing.dataSize h_standing)⟩
    calc ((c.loadStep x).loadFor row).cycles
        = (c.loadStep x).cycles + row.length := h_cycles
      _ = c.cycles + (row.length + 1) := by omega

/-- **The pointers follow the reset line.** The instruction pointer is zero or wrapped. -/
theorem ip_loadFor :
    (c.loadFor row).ip = pointerAfter c.code.size c.ip (row.map (·.boot)) := by
  induction row generalizing c with
  | nil => rfl
  | cons x row ih =>
    have h_size : (c.loadStep x).code.size = c.code.size := (c.counters_loadFor [x]).2.2.1
    -- the pointer after the first clock is the one that the others move
    calc ((c.loadStep x).loadFor row).ip
        = pointerAfter c.code.size (c.loadStep x).ip (row.map (·.boot)) := by rw [ih, h_size]
      _ = pointerAfter c.code.size c.ip (x.boot :: row.map (·.boot)) := by
          rw [ip_loadStep, pointerAfter_cons]

/-- The data pointer is zero or wrapped in the same way. -/
theorem dp_loadFor :
    (c.loadFor row).dp = pointerAfter c.data.size c.dp (row.map (·.boot)) := by
  induction row generalizing c with
  | nil => rfl
  | cons x row ih =>
    have h_size : (c.loadStep x).data.size = c.data.size := (c.counters_loadFor [x]).2.2.2
    calc ((c.loadStep x).loadFor row).dp
        = pointerAfter c.data.size (c.loadStep x).dp (row.map (·.boot)) := by rw [ih, h_size]
      _ = pointerAfter c.data.size c.dp (x.boot :: row.map (·.boot)) := by
          rw [dp_loadStep, pointerAfter_cons]

end Row

/-! ### Other rows with the same result -/

section Exchange

variable (c : Core) (front behind : List LoadClock) {x y z : LoadClock}

/-- **A clock is as good as two**, if each of its writes is made on one of the two and the
other is quiet for that memory. -/
theorem sameContents_of_split
    (h_bus : ∀ bank, (y.bus bank).valid = false ∧ x.bus bank = z.bus bank ∨
      (x.bus bank).valid = false ∧ y.bus bank = z.bus bank)
    (h_boot : z.boot = (x.boot || y.boot)) :
    (c.loadFor (front ++ z :: behind)).SameContents (c.loadFor (front ++ x :: y :: behind)) := by
  have h_boots : true ∈ (front ++ z :: behind).map (·.boot) ↔
      true ∈ (front ++ x :: y :: behind).map (·.boot) := by
    simp [h_boot, or_assoc]
  have h_some : (front ++ z :: behind).map (·.boot) = [] ↔
      (front ++ x :: y :: behind).map (·.boot) = [] := by
    simp
  refine ⟨fun bank => ?_, ?_, ?_⟩
  · -- the clock that is quiet for this memory does nothing, and the other one does it all
    have h_pair : ∀ m : Memory,
        m.accept (z.bus bank) = (m.accept (x.bus bank)).accept (y.bus bank) := by
      intro m
      rcases h_bus bank with ⟨h_quiet, h_same⟩ | ⟨h_quiet, h_same⟩
      · rw [Memory.accept_of_not_valid _ h_quiet, h_same]
      · rw [Memory.accept_of_not_valid _ h_quiet, h_same]
    rw [memory_loadFor, memory_loadFor, List.map_append, List.map_append,
      Memory.acceptAll_append, Memory.acceptAll_append]
    exact congrArg (fun m : Memory => m.acceptAll (behind.map (·.bus bank))) (h_pair _)
  · rw [ip_loadFor, ip_loadFor, pointerAfter_congr h_boots h_some]
  · rw [dp_loadFor, dp_loadFor, pointerAfter_congr h_boots h_some]

/-- Clocks with writes to different addresses of a memory may be exchanged. -/
theorem memory_loadFor_swap {bank : Bank}
    (h : (x.bus bank).Apart (y.bus bank) (c.memory bank).size) :
    (c.loadFor (front ++ x :: y :: behind)).memory bank
      = (c.loadFor (front ++ y :: x :: behind)).memory bank := by
  have h_apart : (x.bus bank).Apart (y.bus bank)
      ((c.memory bank).acceptAll (front.map (·.bus bank))).size := by
    rwa [Memory.size_acceptAll]
  have h_swap := Memory.accept_comm _ h_apart
  -- the two clocks stand behind the same row, and the same row stands behind them
  rw [memory_loadFor, memory_loadFor, List.map_append, List.map_append, Memory.acceptAll_append,
    Memory.acceptAll_append]
  exact congrArg (fun m : Memory => m.acceptAll (behind.map (·.bus bank))) h_swap

/-- The order of resets makes no difference. -/
theorem pointers_loadFor_swap :
    (c.loadFor (front ++ x :: y :: behind)).ip = (c.loadFor (front ++ y :: x :: behind)).ip ∧
      (c.loadFor (front ++ x :: y :: behind)).dp = (c.loadFor (front ++ y :: x :: behind)).dp := by
  have h_boots : true ∈ (front ++ x :: y :: behind).map (·.boot) ↔
      true ∈ (front ++ y :: x :: behind).map (·.boot) := by
    simp [or_left_comm]
  have h_some : (front ++ x :: y :: behind).map (·.boot) = [] ↔
      (front ++ y :: x :: behind).map (·.boot) = [] := by
    simp
  rw [ip_loadFor, ip_loadFor, dp_loadFor, dp_loadFor, pointerAfter_congr h_boots h_some,
    pointerAfter_congr h_boots h_some]
  exact ⟨rfl, rfl⟩

end Exchange

/-- **The last writer wins, on both memories.** From any core, a row of clocks is run in load
mode, with anything on both buses and on the reset line. Then

* each byte is the low byte of what was offered on the last clock whose bus named its
  address modulo the size of the memory, and as before if there was none;
* a memory does not depend on the bus of the other one: rows that agree on its bus leave the
  same bytes;
* a clock with a write to each memory is as good as two clocks with one write each, in
  either order;
* clocks may be exchanged as far as a memory is concerned in which they write to different
  addresses;
* no instruction retires and none stalls;
* pointers in range stay, or are zero if the reset line was high on some clock. -/
theorem last_writer_wins (c : Core) (row : List LoadClock) :
    (∀ bank, ∀ a < (c.memory bank).size,
      (∀ front x behind, row = front ++ x :: behind →
        (x.bus bank).Names (c.memory bank).size a →
        (∀ y ∈ behind, ¬ (y.bus bank).Names (c.memory bank).size a) →
        ((((c.loadFor row).memory bank).read a).toNat : ℤ) = (x.bus bank).bits % 256) ∧
      ((∀ x ∈ row, ¬ (x.bus bank).Names (c.memory bank).size a) →
        ((c.loadFor row).memory bank).read a = (c.memory bank).read a)) ∧
    (∀ bank, ∀ other : List LoadClock, other.map (·.bus bank) = row.map (·.bus bank) →
      (c.loadFor other).memory bank = (c.loadFor row).memory bank) ∧
    (∀ front behind, ∀ (code data : LoadBus) (first second : Bool),
      row = front ++ ⟨code, data, first || second⟩ :: behind →
      (c.loadFor row).SameContents
        (c.loadFor (front ++ ⟨code, .idle, first⟩ :: ⟨.idle, data, second⟩ :: behind)) ∧
      (c.loadFor row).SameContents
        (c.loadFor (front ++ ⟨.idle, data, first⟩ :: ⟨code, .idle, second⟩ :: behind))) ∧
    (∀ front x y behind, row = front ++ x :: y :: behind →
      (∀ bank, (x.bus bank).Apart (y.bus bank) (c.memory bank).size →
        (c.loadFor row).memory bank = (c.loadFor (front ++ y :: x :: behind)).memory bank) ∧
      (c.loadFor row).ip = (c.loadFor (front ++ y :: x :: behind)).ip ∧
      (c.loadFor row).dp = (c.loadFor (front ++ y :: x :: behind)).dp) ∧
    (∀ front x behind, row = front ++ x :: behind →
      ((c.loadFor front).driving x).step.1 = false) ∧
    (c.loadFor row).stalls = c.stalls ∧ (c.loadFor row).cycles = c.cycles + row.length ∧
    ((∀ x ∈ row, x.boot = false) → c.ip < c.code.size → c.dp < c.data.size →
      (c.loadFor row).ip = c.ip ∧ (c.loadFor row).dp = c.dp) ∧
    ((∃ x ∈ row, x.boot = true) → (c.loadFor row).ip = 0 ∧ (c.loadFor row).dp = 0) := by
  obtain ⟨h_cycles, h_stalls, -, -⟩ := c.counters_loadFor row
  refine ⟨fun bank a h_a => ⟨?_, fun h_none => ?_⟩, fun bank other h_same => ?_, ?_, ?_,
    fun front x behind _ => (c.loadFor front).step_fst_driving x, h_stalls, h_cycles,
    fun h_low h_ip h_dp => ?_, fun h_high => ?_⟩
  · -- the last clock that names the address decides its byte
    rintro front x behind rfl h_names h_behind
    rw [memory_loadFor, List.map_append, List.map_cons,
      Memory.read_acceptAll_of_last _ h_a _ h_names (by simpa using h_behind)]
    exact Bits.toNat_toByte _
  · rw [memory_loadFor]
    exact Memory.read_acceptAll_of_not_named _ h_a (by simpa using h_none)
  · -- a memory sees no bus but its own
    rw [memory_loadFor, memory_loadFor, h_same]
  · rintro front behind code data first second rfl
    -- each memory is quiet on one of the two clocks
    refine ⟨c.sameContents_of_split front behind ?_ rfl,
      c.sameContents_of_split front behind ?_ rfl⟩
    · rintro (_ | _)
      · exact Or.inl ⟨rfl, rfl⟩
      · exact Or.inr ⟨rfl, rfl⟩
    · rintro (_ | _)
      · exact Or.inr ⟨rfl, rfl⟩
      · exact Or.inl ⟨rfl, rfl⟩
  · rintro front x y behind rfl
    exact ⟨fun bank h_apart => c.memory_loadFor_swap front behind h_apart,
      c.pointers_loadFor_swap front behind⟩
  · have h_none : true ∉ row.map (·.boot) := by
      simpa using h_low
    rw [ip_loadFor, dp_loadFor, pointerAfter_of_lt h_ip h_none, pointerAfter_of_lt h_dp h_none]
    exact ⟨rfl, rfl⟩
  · have h_some : true ∈ row.map (·.boot) := by
      simpa using h_high
    rw [ip_loadFor, dp_loadFor, pointerAfter_of_reset h_some, pointerAfter_of_reset h_some]
    exact ⟨rfl, rfl⟩

/-- A core with four words of each memory in use. -/
def usedCore : Core :=
  { ((Core.new ⟨.succ 1, .succ 1⟩).store .code 0 [1, 2, 3, 4]).store .data 0 [5, 6, 7, 8] with
    ip := 1
    dp := 3 }

/-- Writes to the last word of code memory under two of its names, with a write to data
memory on the first clock and a reset on the second. -/
def mixedClocks : List LoadClock :=
  [⟨.offering (-1) 300, .offering 6 (-1), false⟩, ⟨.idle, .idle, true⟩,
    ⟨.offering 7 5, .idle, false⟩]

/-- The later write to the last word wins, and the one to data memory leaves its low byte. It
may as well come on a clock of its own. -/
theorem last_writer_wins_aliased :
    (usedCore.loadFor mixedClocks).code.read 3 = 5 ∧
      (usedCore.loadFor mixedClocks).data.read 2 = 255 ∧
      (usedCore.loadFor mixedClocks).code.read 0 = 1 ∧
      (usedCore.loadFor mixedClocks).SameContents
        (usedCore.loadFor (⟨.idle, .offering 6 (-1), false⟩ :: ⟨.offering (-1) 300, .idle, false⟩
          :: mixedClocks.tail)) ∧
      (usedCore.loadFor mixedClocks).ip = 0 ∧ (usedCore.loadFor mixedClocks).stalls = 0 := by
  obtain ⟨h_bytes, -, h_split, -, -, h_stalls, -, -, h_reset⟩ :=
    last_writer_wins usedCore mixedClocks
  have h_code := (h_bytes .code 3 (by decide)).1 (mixedClocks.take 2) ⟨.offering 7 5, .idle, false⟩
    [] rfl (by decide) (by decide)
  have h_data := (h_bytes .data 2 (by decide)).1 [] _ _ rfl (by decide) (by decide)
  have h_kept := (h_bytes .code 0 (by decide)).2 (by decide)
  refine ⟨UInt8.toNat_inj.mp ?_, UInt8.toNat_inj.mp ?_, h_kept,
    (h_split [] _ _ _ false false rfl).2, (h_reset (by decide)).1, h_stalls⟩
  · exact Int.natCast_inj.mp (h_code.trans (by decide))
  · exact Int.natCast_inj.mp (h_data.trans (by decide))

end Core

end TapeProcessor
