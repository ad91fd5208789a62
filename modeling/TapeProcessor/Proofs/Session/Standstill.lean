import TapeProcessor.Proofs.Core.Handshake
import TapeProcessor.Proofs.Session.Timing

/-!
# A stall within a run

No clock of a run comes between the host and the machine: the host acts only before the
run and after it. So an instruction that waits once waits until the run is over.
`Board.stall_permanent` states it: the clocks that retire are the first ones, all later
ones wait on one instruction, and nothing but the counters tells their number.

What the clocks of a running board come to depends on its `Scene`, the part of the core
that programs can see and the terminal. `Board.Running.clock_fst_eq_false_iff` reads
from the scene alone whether the next clock waits (`Board.Waits`), and a clock that
waits leaves the scene as it was (`Board.Running.scene_clock`). It is no fixed point of
the whole board, for it counts, and it changes the signals of the core on the link; but
neither is in the scene. In particular a clock that waits sends nothing, so no listener
hears a byte that it could send back to a `get` that waits for one.
-/

namespace TapeProcessor

namespace Core

/-- **Only the two instructions for the channels wait**, when theirs is not available. -/
theorem step_fst_eq_false_iff {c : Core} (h : ¬ c.Held) :
    c.step.1 = false ↔
      (c.opcode = .plain .put ∧ c.link.output.ready = false) ∨
        (c.opcode = .plain .get ∧ c.link.input.valid = false) := by
  rw [step_fst, plan_of_not_held h]
  cases c.course with
  -- a clock takes one of eleven courses, two of which stall
  | sends h_op h_ready h_execute =>
    rw [h_execute]
    simp [advance, h_op, h_ready]
  | holdsBack h_op h_ready h_execute =>
    rw [h_execute]
    simp [stall, h_op, h_ready]
  | takes h_op h_valid h_execute =>
    rw [h_execute]
    simp [advance, h_op, h_valid]
  | asks h_op h_valid h_execute =>
    rw [h_execute]
    simp [stall, h_op, h_valid]
  | inc h_op h_execute | dec h_op h_execute | right h_op h_execute | left h_op h_execute
  | skips h_op _ h_execute | enters h_op _ h_execute | returns h_op h_execute =>
    rw [h_execute]
    simp [advance, h_op]

end Core

namespace Board

/-! ### Clocks that wait -/

/-- What the clocks of a running board depend on. -/
structure Scene where
  arch : Arch
  terminal : Terminal

/-- The scene of a board. -/
def scene (b : Board) : Scene := ⟨b.core.arch, b.terminal⟩

/-- The instruction at the pointer sends to a terminal that does not accept, or takes from
one that has nothing to send. -/
def Waits (b : Board) : Prop :=
  (b.core.opcode = .plain .put ∧ b.terminal.accepting = false) ∨
    (b.core.opcode = .plain .get ∧ b.terminal.pending = [])

/-- The board runs instructions, with its pointers in range. -/
structure Running (b : Board) : Prop where
  init : b.core.init = false
  boot : b.core.boot = false
  ip_lt : b.core.ip < b.core.code.size
  dp_lt : b.core.dp < b.core.data.size

variable {b b' : Board}

/-- The instruction at the pointer is read from the scene. -/
theorem opcode_eq_of_scene_eq (h : b'.scene = b.scene) : b'.core.opcode = b.core.opcode := by
  have h_arch : b'.core.arch = b.core.arch := congrArg Scene.arch h
  have h_code : b'.core.code = b.core.code := congrArg Arch.code h_arch
  have h_ip : b'.core.ip = b.core.ip := congrArg Arch.ip h_arch
  rw [Core.opcode, Core.instruction, h_code, h_ip]
  rfl

/-- Whether an instruction waits is read from the scene. -/
theorem Waits.of_scene_eq (h_waits : b.Waits) (h : b'.scene = b.scene) : b'.Waits := by
  have h_terminal : b'.terminal = b.terminal := congrArg Scene.terminal h
  rw [Waits, opcode_eq_of_scene_eq h, h_terminal]
  exact h_waits

/-- Every clock is counted, whatever becomes of it. -/
theorem cycles_after (b : Board) (count : ℕ) :
    (Clock.after Board.clock count b).core.cycles = b.core.cycles + count := by
  induction count generalizing b with
  | zero => rfl
  | succ count ih =>
    calc (Clock.after Board.clock (count + 1) b).core.cycles
        = b.clock.2.core.cycles + count := ih b.clock.2
      _ = b.core.cycles + 1 + count := rfl
      _ = b.core.cycles + (count + 1) := Nat.add_right_comm _ 1 count

namespace Running

/-- A clock leaves the lines low and the pointers in range. -/
theorem clock (h : b.Running) : b.clock.2.Running := by
  obtain ⟨h_ip, h_dp⟩ := b.drivenCore.range_step
  exact ⟨h.init, h.boot, h_ip, h_dp⟩

theorem after (h : b.Running) (count : ℕ) : (Clock.after Board.clock count b).Running := by
  induction count generalizing b with
  | zero => exact h
  | succ count ih => exact ih h.clock

theorem not_held (h : b.Running) : ¬ b.drivenCore.Held := by
  rintro (h_init | h_boot)
  · exact Bool.noConfusion (h.init.symm.trans h_init)
  · exact Bool.noConfusion (h.boot.symm.trans h_boot)

/-- **Whether a clock waits is read from the scene.** -/
theorem clock_fst_eq_false_iff (h : b.Running) : b.clock.1 = false ↔ b.Waits := by
  have h_valid : b.drivenCore.link.input.valid = false ↔ b.terminal.pending = [] := by
    change (!b.terminal.pending.isEmpty) = false ↔ _
    rw [Bool.not_eq_false', List.isEmpty_iff]
  rw [clock_fst, Core.step_fst_eq_false_iff h.not_held, h_valid]
  exact Iff.rfl

/-- **A clock that waits leaves the scene alone.** -/
theorem scene_clock (h : b.Running) (h_waits : b.Waits) : b.clock.2.scene = b.scene := by
  have h_clock : b.clock.1 = false := h.clock_fst_eq_false_iff.mpr h_waits
  have h_arch : b.clock.2.core.arch = b.core.arch :=
    Core.arch_step_of_not_retired (c := b.drivenCore) h.init h.boot h.ip_lt h.dp_lt h_clock
  rw [scene, h_arch, terminal_clock_of_not_retired h_clock]
  rfl

/-- **A board that waits goes on waiting**, with the same scene on every later clock. -/
theorem scene_after (h : b.Running) (h_waits : b.Waits) (count : ℕ) :
    (Clock.after Board.clock count b).scene = b.scene := by
  induction count generalizing b with
  | zero => rfl
  | succ count ih =>
    have h_same := h.scene_clock h_waits
    exact (ih h.clock (h_waits.of_scene_eq h_same)).trans h_same

/-- An instruction that waits waits on every later clock. -/
theorem waits_after (h : b.Running) (h_waits : b.Waits) (count : ℕ) :
    (Clock.after Board.clock count b).Waits :=
  h_waits.of_scene_eq (h.scene_after h_waits count)

/-- While an instruction waits, none retires. -/
theorem retired_eq_zero (h : b.Running) (h_waits : b.Waits) (count : ℕ) :
    Clock.retired Board.clock count b = 0 := by
  induction count generalizing b with
  | zero => rfl
  | succ count ih =>
    have h_next := h_waits.of_scene_eq (h.scene_clock h_waits)
    rw [Clock.retired_succ, h.clock_fst_eq_false_iff.mpr h_waits, ih h.clock h_next]
    rfl

/-! ### Clocks of a run -/

/-- **The clocks that retire come first.** -/
theorem retires_iff_lt (h : b.Running) (count : ℕ) :
    Clock.retired Board.clock count b ≤ count ∧
      ∀ k < count, ((Clock.after Board.clock k b).clock.1 = true ↔
        k < Clock.retired Board.clock count b) := by
  induction count generalizing b with
  | zero => exact ⟨Nat.le_refl 0, fun k h_k => absurd h_k (Nat.not_lt_zero k)⟩
  | succ count ih =>
    cases h_clock : b.clock.1 with
    -- one that waits is followed by none that retires
    | false =>
      have h_waits := h.clock_fst_eq_false_iff.mp h_clock
      rw [h.retired_eq_zero h_waits]
      refine ⟨Nat.zero_le _, fun k _ => iff_of_false ?_ (Nat.not_lt_zero k)⟩
      rw [(h.after k).clock_fst_eq_false_iff.mpr (h.waits_after h_waits k)]
      exact Bool.false_ne_true
    | true =>
      obtain ⟨h_le, h_iff⟩ := ih h.clock
      rw [Clock.retired_succ, h_clock, Bool.toNat_true]
      refine ⟨by omega, fun k h_k => ?_⟩
      cases k with
      | zero => exact iff_of_true h_clock (by omega)
      | succ k =>
        rw [Clock.after_succ, h_iff k (by omega)]
        omega

/-- A run on which fewer clocks retire than it has ends with a board that waits. -/
theorem waits_of_retired_lt (h : b.Running) (count : ℕ)
    (h_lt : Clock.retired Board.clock count b < count) :
    (Clock.after Board.clock (Clock.retired Board.clock count b) b).Waits := by
  have h_stalls := (h.retires_iff_lt count).2 _ h_lt
  refine (h.after _).clock_fst_eq_false_iff.mp (Bool.eq_false_iff.mpr fun h_retires => ?_)
  exact Nat.lt_irrefl _ (h_stalls.mp h_retires)

/-- **From the last clock that retires on, the scene stays.** -/
theorem scene_after_retired (h : b.Running) (count k : ℕ)
    (h_k : Clock.retired Board.clock count b ≤ k) (h_count : k ≤ count) :
    (Clock.after Board.clock k b).scene
      = (Clock.after Board.clock (Clock.retired Board.clock count b) b).scene := by
  obtain ⟨d, h_d⟩ := Nat.exists_eq_add_of_le h_k
  rcases Nat.eq_zero_or_pos d with rfl | h_pos
  · rw [h_d, Nat.add_zero]
  · rw [h_d, Clock.after_add]
    exact (h.after _).scene_after (h.waits_of_retired_lt count (by omega)) d

/-- **One instruction waits** on all clocks that do not retire, at one address. -/
theorem exists_waiting (h : b.Running) (count : ℕ) :
    ∃ command, (command = .put ∨ command = .get) ∧
      ∀ k, Clock.retired Board.clock count b ≤ k → k < count →
        (Clock.after Board.clock k b).core.opcode = .plain command ∧
          (Clock.after Board.clock k b).core.ip
            = (Clock.after Board.clock (Clock.retired Board.clock count b) b).core.ip := by
  have h_waits := h.waits_of_retired_lt count
  have h_scene := h.scene_after_retired count
  generalize Clock.retired Board.clock count b = r at h_waits h_scene ⊢
  -- it is the one at which the board stands after the last clock that retires
  have h_same : ∀ k, r ≤ k → k < count →
      (Clock.after Board.clock k b).core.opcode = (Clock.after Board.clock r b).core.opcode ∧
        (Clock.after Board.clock k b).core.ip = (Clock.after Board.clock r b).core.ip := by
    intro k h_k h_count
    have h_equal := h_scene k h_k (Nat.le_of_lt h_count)
    exact ⟨opcode_eq_of_scene_eq h_equal, congrArg (fun s => s.arch.ip) h_equal⟩
  by_cases h_lt : r < count
  · rcases h_waits h_lt with ⟨h_op, -⟩ | ⟨h_op, -⟩
    · exact ⟨.put, Or.inl rfl, fun k h_k h_count => h_op ▸ h_same k h_k h_count⟩
    · exact ⟨.get, Or.inr rfl, fun k h_k h_count => h_op ▸ h_same k h_k h_count⟩
  · exact ⟨.put, Or.inl rfl, fun k h_k h_count => absurd (Nat.lt_of_le_of_lt h_k h_count) h_lt⟩

/-- **The counters of a run**: every clock is counted, and either retires or stalls. -/
theorem counters_after (h : b.Running) (count : ℕ) :
    (Clock.after Board.clock count b).core.cycles = b.core.cycles + count ∧
      Clock.retired Board.clock count b + (Clock.after Board.clock count b).core.stalls
        = b.core.stalls + count := by
  refine ⟨b.cycles_after count, ?_⟩
  induction count generalizing b with
  | zero => exact Nat.zero_add _
  | succ count ih =>
    have h_stalls := ih h.clock
    have h_holds : b.drivenCore.inputs.holds = false :=
      Bool.eq_false_iff.mpr fun h_holds => h.not_held (b.drivenCore.holds_inputs_iff.mp h_holds)
    have h_first : 1 + b.core.stalls = b.clock.1.toNat + b.clock.2.core.stalls := by
      have h_account := b.drivenCore.account_step
      rwa [h_holds] at h_account
    rw [Clock.after_succ, Clock.retired_succ]
    omega

end Running

/-! ### Runs -/

/-- No clock undoes a reset. -/
theorem booted_after (b : Board) (count : ℕ) :
    (Clock.after Board.clock count b).booted = b.booted := by
  induction count generalizing b with
  | zero => rfl
  | succ count ih => exact ih b.clock.2

/-- A run on a board that was reset answers with the number of instructions that retired. -/
theorem run_of_booted (h : b.booted = true) (count : ℤ) :
    b.run count
      = .success (Clock.retired Board.clock count.toNat b)
        (Clock.after Board.clock count.toNat b) [] := by
  rw [run, whenBooted, if_pos h, Clock.run_eq]

/-- **A stall within a run is permanent and harmless.** A run of `n` clocks, from any board
that was booted and is in run mode, whatever its terminal, answers with a number `r`:

* the first `r` clocks retire, and on all others one `put` or `get` waits, at one address;
* memories, pointers and terminal are those after a run of `r` clocks from the same board;
* every clock is counted, and those after the first `r` are counted as stalls;
* if there are any of these, every run that follows at once answers zero. -/
theorem stall_permanent (h : b.Running) (h_booted : b.booted = true) (n : ℕ) :
    ∃ r ≤ n, (b.run n).answer = .ok r ∧
      (∀ k < n, ((Clock.after Board.clock k b).clock.1 = true ↔ k < r)) ∧
      (∃ command, (command = .put ∨ command = .get) ∧ ∀ k, r ≤ k → k < n →
        (Clock.after Board.clock k b).core.opcode = .plain command ∧
          (Clock.after Board.clock k b).core.ip = (b.run r).board.core.ip) ∧
      (b.run n).board.core.arch = (b.run r).board.core.arch ∧
      (b.run n).board.terminal = (b.run r).board.terminal ∧
      (b.run n).board.core.cycles = b.core.cycles + n ∧
      (b.run n).board.core.stalls = b.core.stalls + (n - r) ∧
      (r < n → ∀ m : ℤ, ((b.run n).board.run m).answer = .ok 0) := by
  obtain ⟨h_le, h_first⟩ := h.retires_iff_lt n
  obtain ⟨h_cycles, h_stalls⟩ := h.counters_after n
  have h_waiting := h.exists_waiting n
  have h_waits := h.waits_of_retired_lt n
  have h_last := h.scene_after_retired n n h_le (Nat.le_refl n)
  have h_board : ∀ count : ℕ, (b.run count).board = Clock.after Board.clock count b := by
    intro count
    rw [run_of_booted h_booted, Int.toNat_natCast]
    rfl
  have h_answer : (b.run n).answer = .ok (Clock.retired Board.clock n b) := by
    rw [run_of_booted h_booted, Int.toNat_natCast]
    rfl
  generalize Clock.retired Board.clock n b = r at *
  rw [← h_board, ← h_board] at h_last
  rw [← h_board] at h_cycles h_stalls
  refine ⟨r, h_le, h_answer, h_first, ?_, congrArg Scene.arch h_last,
    congrArg Scene.terminal h_last, h_cycles, by omega, fun h_lt m => ?_⟩
  · rw [h_board]
    exact h_waiting
  -- the board still waits at the end of the run, and so through any other run
  · have h_now : (b.run n).board.Waits := by
      refine Waits.of_scene_eq ?_ h_last
      rw [h_board]
      exact h_waits h_lt
    rw [h_board] at h_now ⊢
    rw [run_of_booted ((b.booted_after n).trans h_booted), (h.after n).retired_eq_zero h_now]
    rfl

/-- A board whose terminal sends back what it hears. Its program takes a byte, sends it,
takes it again and then takes one more. -/
def echoBoard : Board where
  core :=
    { Core.new ⟨⟨2, Nat.zero_lt_two⟩, ⟨1, Nat.zero_lt_one⟩⟩ with
      code := (Memory.zeros ⟨2, Nat.zero_lt_two⟩).store 0
        ([.plain .get, .plain .put, .plain .get, .plain .get].map Opcode.word) }
  terminal := ⟨#[], [7], true, .echo, #[]⟩
  imageSize := 4
  booted := true

/-- Three of six clocks retire. The byte that was sent back was taken, and no other comes. -/
theorem stall_permanent_echo :
    echoBoard.Running ∧ echoBoard.booted = true ∧
      (echoBoard.run 6).answer = .ok 3 ∧
      (echoBoard.run 6).board.terminal = (echoBoard.run 3).board.terminal ∧
      (echoBoard.run 6).board.terminal.heard = #[7] ∧
      (echoBoard.run 6).board.core.stalls = 3 ∧
      ∀ m : ℤ, ((echoBoard.run 6).board.run m).answer = .ok 0 := by
  have h : echoBoard.Running := ⟨rfl, rfl, by decide, by decide⟩
  have h_three : (echoBoard.run (6 : ℕ)).answer = .ok 3 := by decide +kernel
  obtain ⟨r, -, h_answer, -, -, -, h_terminal, -, h_stalls, h_later⟩ :=
    stall_permanent h rfl 6
  obtain rfl : 3 = r := Except.ok.inj (h_three.symm.trans h_answer)
  exact ⟨h, rfl, h_three, h_terminal, by decide +kernel, h_stalls, h_later (by decide)⟩

end Board

end TapeProcessor
