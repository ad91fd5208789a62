import TapeProcessor.Proofs.Session.Standstill
import TapeProcessor.Text.Latin1

/-!
# Runs that wait for something

Two operations run a board until something is the case: until the instruction pointer is at
an address, and until the terminal holds a number of bytes. Both look before each clock, and
not after the last one. So they differ from a plain run only in the number of their clocks,
and this number is the least one after which the condition holds, or the limit if that is
smaller.

* `Board.times P b` are the numbers of clocks after which the board has the property `P`, and
  `Board.visits` and `Board.supplied` are those that the two operations look for.
* `Board.clocksUntil_eq_min` ties the loop to the least of them. It rests on what is known
  of the loop without any knowledge of the machine (`Board.clocksUntil_spec`).

`Board.runTo_first_visit` is this fact for the run to an address, and
`Board.runUntilOutput_least` for the run until there is output. The latter counts bytes, so
it needs to know what a clock adds to them: `Board.sends` are the bytes of the `put` that
retires, of which there is at most one, and `Board.received_after` says that the terminal
holds what it held and behind it what was sent. Therefore a run that had to wait for its
last byte stops with exactly as many bytes as it waited for.
-/

namespace TapeProcessor.Board

variable {b : Board} {P : Board → Prop} {stop : Board → Bool} {k : ℕ}

/-! ### The number of clocks -/

/-- The numbers of clocks after which the board has a property. -/
def times (P : Board → Prop) (b : Board) : Set ℕ := {k | P (Clock.after clock k b)}

/-- The numbers of clocks after which the instruction pointer is an address modulo the size
of code memory. -/
def visits (address : ℤ) (b : Board) : Set ℕ :=
  times (fun b' => (b'.core.ip : ℤ) = address % b.core.code.size) b

/-- The numbers of clocks after which the terminal holds as many bytes as are wanted. -/
def supplied (wanted : ℤ) (b : Board) : Set ℕ :=
  times (fun b' => wanted ≤ b'.terminal.received.size) b

/-- A property that holds after `k` clocks and not before holds after `k` clocks first. -/
theorem isLeast_times (h_met : P (Clock.after clock k b))
    (h_before : ∀ j < k, ¬ P (Clock.after clock j b)) : IsLeast (b.times P) k := by
  refine ⟨h_met, fun j h_j => ?_⟩
  by_contra h_lt
  exact h_before j (not_le.mp h_lt) h_j

/-- **What the loop knows when it ends.** The condition was not met before any of its clocks,
and it is met now unless the limit is used up. -/
theorem clocksUntil_spec (stop : Board → Bool) (limit : ℕ) (b : Board) :
    clocksUntil stop limit b ≤ limit ∧
      (∀ j < clocksUntil stop limit b, stop (Clock.after clock j b) = false) ∧
      (clocksUntil stop limit b < limit →
        stop (Clock.after clock (clocksUntil stop limit b) b) = true) := by
  induction limit generalizing b with
  | zero => exact ⟨Nat.le_refl 0, fun j h_j => absurd h_j (Nat.not_lt_zero j),
      fun h_lt => absurd h_lt (Nat.lt_irrefl 0)⟩
  | succ limit ih =>
    by_cases h_now : stop b = true
    · rw [clocksUntil_of_met h_now]
      exact ⟨Nat.zero_le _, fun j h_j => absurd h_j (Nat.not_lt_zero j), fun _ => h_now⟩
    · -- one clock, and then the loop from the board after it
      rw [clocksUntil_of_not_met h_now]
      obtain ⟨h_le, h_before, h_met⟩ := ih b.clock.2
      refine ⟨Nat.succ_le_succ h_le, ?_, fun h_lt => h_met (Nat.lt_of_succ_lt_succ h_lt)⟩
      intro j h_j
      cases j with
      | zero => exact Bool.eq_false_iff.mpr h_now
      | succ j => exact h_before j (Nat.lt_of_succ_lt_succ h_j)

section Times

variable (h_stop : ∀ b, stop b = true ↔ P b)
include h_stop

/-- Before the loop ends, its condition is not met. -/
theorem not_mem_times_of_lt {limit j : ℕ} (h_lt : j < clocksUntil stop limit b) :
    j ∉ b.times P := by
  intro h_mem
  have h_met : stop (Clock.after clock j b) = true := (h_stop _).mpr h_mem
  rw [(clocksUntil_spec stop limit b).2.1 j h_lt] at h_met
  exact Bool.noConfusion h_met

/-- **The loop stops at the least number of clocks**, or at its limit. -/
theorem clocksUntil_eq_min (h_least : IsLeast (b.times P) k) (limit : ℕ) :
    clocksUntil stop limit b = min k limit := by
  obtain ⟨h_le, -, h_met⟩ := clocksUntil_spec stop limit b
  have h_upper : clocksUntil stop limit b ≤ k := by
    by_contra h_gt
    exact not_mem_times_of_lt h_stop (not_le.mp h_gt) h_least.1
  rcases Nat.lt_or_eq_of_le h_le with h_lt | h_eq
  · -- it stopped early, at a number of clocks that is not below the least one
    have h_mem : clocksUntil stop limit b ∈ b.times P := (h_stop _).mp (h_met h_lt)
    have h_lower : k ≤ clocksUntil stop limit b := h_least.2 h_mem
    omega
  · omega

/-- If the condition is not met below the limit, all clocks are used. -/
theorem clocksUntil_eq_limit {limit : ℕ} (h_none : ∀ j < limit, j ∉ b.times P) :
    clocksUntil stop limit b = limit := by
  obtain ⟨h_le, -, h_met⟩ := clocksUntil_spec stop limit b
  by_contra h_ne
  have h_lt : clocksUntil stop limit b < limit := Nat.lt_of_le_of_ne h_le h_ne
  exact h_none _ h_lt ((h_stop _).mp (h_met h_lt))

end Times

/-- Below a limit there is no time at all, if the least one is not below it. -/
theorem not_mem_times_of_le {limit : ℕ} (h : ∀ k, IsLeast (b.times P) k → limit ≤ k) :
    ∀ j < limit, j ∉ b.times P := by
  intro j h_j h_mem
  have h_first : IsLeast (b.times P) (sInf (b.times P)) := isLeast_csInf ⟨j, h_mem⟩
  have h_less : j < j :=
    calc j < limit := h_j
      _ ≤ sInf (b.times P) := h _ h_first
      _ ≤ j := h_first.2 h_mem
  exact Nat.lt_irrefl j h_less

/-! ### Runs to an address -/

theorem clocks_runTo (h_booted : b.booted = true) (address : ℤ) (limit : ℕ) :
    b.clocks (.runTo address limit)
      = clocksUntil (fun b' => b'.core.ip = b.core.code.wrap address) limit b := by
  rw [clocks, if_pos h_booted]
  rfl

/-- A run to an address answers with the number of its clocks. If it does not arrive, this
is the limit. -/
theorem runTo_of_booted (h_booted : b.booted = true) (address : ℤ) (limit : ℕ) :
    b.runTo address limit =
      .success (b.clocks (.runTo address limit) : ℤ)
        (Clock.after clock (b.clocks (.runTo address limit)) b) [] := by
  have h_le := (clocksUntil_spec (fun b' => b'.core.ip = b.core.code.wrap address) limit b).1
  rw [runTo_eq h_booted, Int.toNat_natCast, seek_fst, seek_snd, after_clockMoves,
    clocks_runTo h_booted]
  rcases Nat.lt_or_eq_of_le h_le with h_lt | h_all
  · -- it arrives, or it uses up its limit and answers with that
    rw [if_pos h_lt, Nat.zero_add]
    rfl
  · rw [if_neg (by omega), h_all]
    rfl

/-- The loop looks for the address modulo the size of code memory. -/
theorem ip_eq_wrap_iff (b b' : Board) (address : ℤ) :
    b'.core.ip = b.core.code.wrap address ↔
      (b'.core.ip : ℤ) = address % b.core.code.size := by
  rw [← Memory.wrap_eq_emod]
  exact Int.natCast_inj.symm

/-- **A run to an address stops at the first visit.** Let `k` be the least number of clocks
after which the instruction pointer is the address modulo the size of code memory. If it is
below the limit, the run answers with `k` and leaves the board as it is after `k` clocks;
otherwise, and if there is no such number, it answers with the limit and leaves the board as
it is after so many clocks. Every clock of the run is counted, and before none of them the
pointer was at the address. Nothing is added to the journal. -/
theorem runTo_first_visit (h_booted : b.booted = true) (address : ℤ) (limit : ℕ) :
    (b.runTo address limit).events = [] ∧
    (∀ k, IsLeast (b.visits address) k → k < limit →
      (b.runTo address limit).answer = .ok (k : ℤ) ∧
        (b.runTo address limit).board = Clock.after clock k b ∧
        ((b.runTo address limit).board.core.ip : ℤ) = address % b.core.code.size) ∧
    ((∀ k, IsLeast (b.visits address) k → limit ≤ k) →
      (b.runTo address limit).answer = .ok (limit : ℤ) ∧
        (b.runTo address limit).board = Clock.after clock limit b) ∧
    ∃ used : ℕ, (b.runTo address limit).answer = .ok (used : ℤ) ∧
      (b.runTo address limit).board.core.cycles = b.core.cycles + used ∧
      ∀ j < used, ((Clock.after clock j b).core.ip : ℤ) ≠ address % b.core.code.size := by
  have h_stop : ∀ b' : Board, decide (b'.core.ip = b.core.code.wrap address) = true ↔
      (b'.core.ip : ℤ) = address % b.core.code.size := by
    intro b'
    rw [decide_eq_true_iff, ip_eq_wrap_iff]
  have h_run := runTo_of_booted h_booted address limit
  rw [clocks_runTo h_booted] at h_run
  refine ⟨congrArg Outcome.events h_run, fun k h_least h_lt => ?_, fun h_late => ?_, ?_⟩
  · -- the loop ends early, and the pointer is there
    rw [clocksUntil_eq_min h_stop h_least, Nat.min_eq_left (Nat.le_of_lt h_lt)] at h_run
    rw [h_run]
    exact ⟨rfl, rfl, h_least.1⟩
  · -- no visit is early enough, so all clocks are used
    rw [clocksUntil_eq_limit h_stop (not_mem_times_of_le h_late)] at h_run
    rw [h_run]
    exact ⟨rfl, rfl⟩
  · refine ⟨_, congrArg Outcome.answer h_run, ?_, fun j h_j => not_mem_times_of_lt h_stop h_j⟩
    rw [h_run]
    exact cycles_after b _

/-- The pointer arrives at the last of four words on the third clock, and stays there since
no more input comes. A run of two clocks does not get so far. -/
theorem runTo_first_visit_wrapped :
    echoBoard.booted = true ∧
      IsLeast (echoBoard.visits (-1)) 3 ∧
      (echoBoard.runTo (-1) (5 : ℕ)).answer = .ok 3 ∧
      (echoBoard.runTo (-1) (5 : ℕ)).board = Clock.after clock 3 echoBoard ∧
      (echoBoard.runTo (-1) (2 : ℕ)).answer = .ok 2 ∧
      (echoBoard.runTo (-1) (2 : ℕ)).board = Clock.after clock 2 echoBoard := by
  have h_least : IsLeast (echoBoard.visits (-1)) 3 :=
    isLeast_times (by decide +kernel) (by decide +kernel)
  have h_five := (runTo_first_visit (b := echoBoard) rfl (-1) 5).2.1 3 h_least (by decide)
  have h_two := (runTo_first_visit (b := echoBoard) rfl (-1) 2).2.2.1 fun k h_k => by
    rw [h_k.unique h_least]
    decide
  exact ⟨rfl, h_least, h_five.1, h_five.2.1, h_two.1, h_two.2⟩

/-! ### Output on a row of clocks -/

/-- The bytes that a clock sends: the current cell, if a `put` retires. -/
def sends (b : Board) : List UInt8 :=
  if b.clock.1 = true ∧ b.core.opcode = .plain .put then [b.core.cell] else []

/-- The bytes that are sent on the first `count` clocks. -/
def emitted (b : Board) (count : ℕ) : List UInt8 :=
  (List.range count).flatMap fun j => (Clock.after clock j b).sends

/-- What the core sends on a clock, it sends by a `put`. -/
theorem sent_eq_sends (b : Board) : b.drivenCore.plan.sent.toList = b.sends := by
  rw [sends, clock_fst]
  cases b.drivenCore.exchanges with
  | put h_verdict h_op _ h_sent _ =>
    rw [h_sent, if_pos ⟨h_verdict, h_op⟩]
    rfl
  | silent h_verdict h_sent =>
    -- nothing retires, so nothing is sent
    rw [h_sent, if_neg fun h => Bool.noConfusion (h_verdict.symm.trans h.1)]
    rfl
  | get _ h_op _ h_sent =>
    rw [h_sent, if_neg fun h => by cases h_op.symm.trans h.2]
    rfl
  | other _ h_put _ h_sent =>
    rw [h_sent, if_neg fun h => h_put h.2]
    rfl

/-- A clock sends one byte at most. -/
theorem length_sends_le (b : Board) : b.sends.length ≤ 1 := by
  rw [sends]
  split
  · exact Nat.le_refl 1
  · exact Nat.zero_le 1

/-- What a clock sends is received behind the rest. -/
theorem received_clock (b : Board) :
    b.clock.2.terminal.received.toList = b.terminal.received.toList ++ b.sends := by
  rw [terminal_clock_eq, Terminal.received_exchange, sent_eq_sends]

/-- **The terminal holds what it held and what was sent**, in this order. -/
theorem received_after (b : Board) (count : ℕ) :
    (Clock.after clock count b).terminal.received.toList
      = b.terminal.received.toList ++ b.emitted count := by
  induction count with
  | zero => exact (List.append_nil _).symm
  | succ count ih =>
    calc (Clock.after clock (count + 1) b).terminal.received.toList
        = (Clock.after clock count b).clock.2.terminal.received.toList := by
          rw [Clock.after_add]
          rfl
      _ = b.terminal.received.toList ++ b.emitted count ++ (Clock.after clock count b).sends := by
          rw [received_clock, ih]
      _ = b.terminal.received.toList ++ b.emitted (count + 1) := by
          rw [emitted, emitted, List.range_succ, List.flatMap_append, List.flatMap_singleton,
            List.append_assoc]

/-- **A clock adds at most one byte.** -/
theorem size_received_succ_le (b : Board) (count : ℕ) :
    (Clock.after clock (count + 1) b).terminal.received.size
      ≤ (Clock.after clock count b).terminal.received.size + 1 := by
  have h_length := congrArg List.length (received_clock (Clock.after clock count b))
  have h_sends := length_sends_le (Clock.after clock count b)
  rw [List.length_append, Array.length_toList, Array.length_toList] at h_length
  rw [Clock.after_add]
  change (Clock.after clock count b).clock.2.terminal.received.size ≤ _
  omega

/-! ### Runs until there is output -/

theorem clocks_runUntilOutput (h_booted : b.booted = true) (wanted limit : ℤ) :
    b.clocks (.runUntilOutput wanted limit)
      = clocksUntil (fun b' => wanted ≤ b'.terminal.received.size) limit.toNat b := by
  rw [clocks, if_pos h_booted]

/-- A run until there is output collects what the terminal holds after its clocks. -/
theorem runUntilOutput_of_booted (h_booted : b.booted = true) (wanted limit : ℤ) :
    let last := Clock.after clock (b.clocks (.runUntilOutput wanted limit)) b
    b.runUntilOutput wanted limit =
      .success last.terminal.received { last with terminal := last.terminal.drain.2 }
        (if last.terminal.received.size < wanted then
          [.outputShort last.terminal.received.size wanted limit]
        else []) := by
  intro last
  rw [runUntilOutput, whenBooted, if_pos h_booted, gather_eq, after_clockMoves,
    ← clocks_runUntilOutput h_booted]
  rfl

/-- A run that ends with enough output, and did not begin with it, ends with just as much
as was wanted. -/
theorem size_received_of_waited {wanted : ℤ} {used : ℕ}
    (h_before : ∀ j < used, ¬ wanted ≤ (Clock.after clock j b).terminal.received.size)
    (h_short : b.terminal.received.size < wanted)
    (h_enough : wanted ≤ (Clock.after clock used b).terminal.received.size) :
    ((Clock.after clock used b).terminal.received.size : ℤ) = wanted := by
  cases used with
  | zero =>
    change wanted ≤ b.terminal.received.size at h_enough
    omega
  | succ m =>
    -- the last clock brought the terminal from too few bytes to enough
    have h_last := h_before m (Nat.lt_succ_self m)
    have h_step := size_received_succ_le b m
    omega

/-- **A run until there is output stops as soon as there is, and loses nothing.** Let `k` be
the least number of clocks after which the terminal holds as many bytes as are wanted. The
run takes as many clocks, or as many as the limit allows if these are fewer or there is no
such `k`. It answers with what the terminal held and behind it all that was sent on these
clocks, byte by byte and as a text, and leaves the board as it is after them, but without
output. A warning, and nothing else, is left in the journal if and only if the answer is
shorter than was wanted. If there was too little output at the start and no warning is
left, the answer is as long as was wanted; if there was enough, no clock is run. -/
theorem runUntilOutput_least (h_booted : b.booted = true) (wanted limit : ℤ) :
    ∃ (used : ℕ) (bytes : Array UInt8),
      (∀ k, IsLeast (b.supplied wanted) k → (used : ℤ) = min (k : ℤ) (max 0 limit)) ∧
      (b.supplied wanted = ∅ → (used : ℤ) = max 0 limit) ∧
      (b.runUntilOutput wanted limit).answer = .ok bytes ∧
      bytes.toList = b.terminal.received.toList ++ b.emitted used ∧
      Latin1.decode bytes
        = String.ofList ((b.terminal.received.toList ++ b.emitted used).map Latin1.charOf) ∧
      (b.runUntilOutput wanted limit).board =
        { Clock.after clock used b with
          terminal := { (Clock.after clock used b).terminal with received := #[] } } ∧
      ((b.runUntilOutput wanted limit).events = if ((Latin1.decode bytes).length : ℤ) < wanted then
          [.outputShort bytes.size wanted limit]
        else []) ∧
      (∀ event ∈ (b.runUntilOutput wanted limit).events, event.severity = .warning) ∧
      (b.terminal.received.size < wanted → (b.runUntilOutput wanted limit).events = [] →
        ((Latin1.decode bytes).length : ℤ) = wanted) ∧
      (wanted ≤ b.terminal.received.size → used = 0) := by
  have h_stop : ∀ b' : Board, decide (wanted ≤ b'.terminal.received.size) = true ↔
      wanted ≤ b'.terminal.received.size := fun b' => decide_eq_true_iff
  have h_run := runUntilOutput_of_booted h_booted wanted limit
  rw [clocks_runUntilOutput h_booted wanted limit] at h_run
  have h_before : ∀ j < clocksUntil (fun b' => wanted ≤ b'.terminal.received.size) limit.toNat b,
      ¬ wanted ≤ (Clock.after clock j b).terminal.received.size :=
    fun j h_j => not_mem_times_of_lt h_stop h_j
  refine ⟨_, _, fun k h_least => ?_, fun h_none => ?_, congrArg Outcome.answer h_run,
    received_after b _, ?_, congrArg Outcome.board h_run, ?_, ?_, ?_, fun h_enough => ?_⟩
  · -- a limit below zero allows no clock, as a limit of zero does
    rw [clocksUntil_eq_min h_stop h_least]
    omega
  · rw [clocksUntil_eq_limit h_stop fun j _ => Set.eq_empty_iff_forall_notMem.mp h_none j]
    omega
  · rw [Latin1.decode, received_after]
  · rw [Latin1.length_decode, h_run]
    rfl
  · -- the only entry there can be is the warning
    intro event h_event
    rw [h_run] at h_event
    dsimp only [Outcome.success] at h_event
    split at h_event
    · rw [List.mem_singleton.mp h_event]
      rfl
    · cases h_event
  · intro h_short h_quiet
    rw [Latin1.length_decode]
    -- no warning means that there is enough in the end
    refine size_received_of_waited h_before h_short ?_
    by_contra h_less
    rw [h_run] at h_quiet
    dsimp only [Outcome.success] at h_quiet
    rw [if_pos (not_le.mp h_less)] at h_quiet
    cases h_quiet
  · by_contra h_ne
    exact h_before 0 (Nat.pos_of_ne_zero h_ne) h_enough

/-- A board that sends how often it has counted, to a terminal that already holds a byte. -/
def countingBoard : Board where
  core :=
    { Core.new ⟨⟨2, Nat.zero_lt_two⟩, ⟨1, Nat.zero_lt_one⟩⟩ with
      code := (Memory.zeros ⟨2, Nat.zero_lt_two⟩).store 0
        ([.plain .inc, .plain .put, .plain .inc, .plain .put].map Opcode.word) }
  terminal := ⟨#[9], [], true, .record, #[]⟩
  imageSize := 4
  booted := true

/-- The third byte comes on the fourth clock, which a limit of six allows. -/
theorem runUntilOutput_least_counting :
    countingBoard.booted = true ∧
      IsLeast (countingBoard.supplied 3) 4 ∧
      ∃ bytes, (countingBoard.runUntilOutput 3 6).answer = .ok bytes ∧
        bytes.toList = [9, 1, 2] ∧
        (countingBoard.runUntilOutput 3 6).board.core.cycles = 4 ∧
        (countingBoard.runUntilOutput 3 6).events = [] := by
  have h_least : IsLeast (countingBoard.supplied 3) 4 :=
    isLeast_times (by decide +kernel) (by decide +kernel)
  obtain ⟨used, bytes, h_min, -, h_answer, h_bytes, -, h_board, h_events, -⟩ :=
    runUntilOutput_least (b := countingBoard) rfl 3 6
  obtain rfl : used = 4 := by
    have h_four := h_min 4 h_least
    omega
  have h_sent : countingBoard.emitted 4 = [1, 2] := by decide +kernel
  rw [h_sent] at h_bytes
  have h_size : bytes.size = 3 := congrArg List.length h_bytes
  rw [Latin1.length_decode, h_size] at h_events
  refine ⟨rfl, h_least, bytes, h_answer, h_bytes, ?_, h_events⟩
  rw [h_board]
  exact cycles_after countingBoard 4

end TapeProcessor.Board
