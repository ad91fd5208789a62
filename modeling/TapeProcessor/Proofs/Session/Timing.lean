import TapeProcessor.Proofs.Board.Exchange
import TapeProcessor.Proofs.Session.Ledger

/-!
# When the host acts makes no difference

Two boards in the same state are given two schedules: any runs, any input in any
portions, output accepted and refused and collected at any time. The input of one is
the beginning of the input of the other. Then what the cores compute depends on how
many instructions retired and on nothing else (`Board.timing_independence`): equally
many leave the same registers, the same data memory and the same bytes consumed and
sent; fewer leave a beginning of them.

The reason is that a clock on which an instruction waits changes neither a register
nor a memory, and that an instruction which retires does what it would do with no
hindrance at all, on the next byte of the whole input. So fix this input as a
constant stream, and let `Progress.next` be the instruction without hindrance:
`Progress` then is a function of the number of instructions (`Progress.after`), and
`Board.Follows` says that a board in a session is where this function is.
-/

namespace TapeProcessor

/-! ### A core without hindrance -/

/-- The part of a core that programs can see. -/
structure Arch where
  code : Memory
  data : Memory
  ip : ℕ
  dp : ℕ

namespace Core

/-- The part of the core that programs can see. -/
def arch (c : Core) : Arch := ⟨c.code, c.data, c.ip, c.dp⟩

end Core

/-- A core to which a byte is offered while all output is taken. -/
def Arch.unhindered (a : Arch) (byte : UInt8) : Core where
  code := a.code
  data := a.data
  ip := a.ip
  dp := a.dp
  init := false
  boot := false
  codeBus := .idle
  dataBus := .idle
  link := ⟨⟨false, true, 0⟩, ⟨⟨true, false, byte.toNat⟩, false⟩⟩
  cycles := 0
  stalls := 0

namespace Core

variable {c : Core}

/-- **What retires was not hindered.** -/
theorem plan_unhindered (h_init : c.init = false) (h_boot : c.boot = false)
    (h_step : c.step.1 = true) {byte : UInt8}
    (h_byte : c.link.input.valid = true → Bits.toByte c.link.input.bits = byte) :
    (c.arch.unhindered byte).plan = c.plan := by
  have h_plan : c.plan = c.execute := by
    rw [plan, h_init, h_boot]
    rfl
  rw [step_fst, h_plan] at h_step
  rw [h_plan]
  change (c.arch.unhindered byte).execute = c.execute
  have h_same : (c.arch.unhindered byte).opcode = c.opcode := rfl
  rw [execute, h_same]
  rw [execute] at h_step ⊢
  cases h_op : c.opcode with
  | jz | jmp => rfl
  | plain command =>
    rw [h_op] at h_step
    cases command with
    | inc | dec | right | left => rfl
    | put =>
      -- a byte that was not taken would have stalled
      cases h_ready : c.link.output.ready with
      | true =>
        simp only [executeCommand, h_ready]
        rfl
      | false =>
        simp only [executeCommand, h_ready] at h_step
        cases h_step
    | get =>
      -- and so would a byte that was not there
      cases h_valid : c.link.input.valid with
      | true =>
        have h_offered : Bits.toByte (c.arch.unhindered byte).link.input.bits = byte :=
          Bits.toByte_toNat byte
        simp only [executeCommand, h_valid, h_byte h_valid, h_offered]
        rfl
      | false =>
        simp only [executeCommand, h_valid] at h_step
        cases h_step

/-- An instruction that retires leaves what it would leave unhindered. -/
theorem arch_step_unhindered (h_init : c.init = false) (h_boot : c.boot = false)
    (h_step : c.step.1 = true) {byte : UInt8}
    (h_byte : c.link.input.valid = true → Bits.toByte c.link.input.bits = byte) :
    (c.arch.unhindered byte).step.2.arch = c.step.2.arch := by
  rw [step_snd, step_snd, plan_unhindered h_init h_boot h_step h_byte]
  rfl

/-- A clock on which an instruction waits leaves registers and memories alone. -/
theorem arch_step_of_not_retired (h_init : c.init = false) (h_boot : c.boot = false)
    (h_ip : c.ip < c.code.size) (h_dp : c.dp < c.data.size) (h_step : c.step.1 = false) :
    c.step.2.arch = c.arch := by
  -- any plan that writes nothing and moves no pointer will do
  have h_idle : ∀ p : Plan, c.plan = p → p.codeWrite = none → p.dataWrite = none → p.ip = c.ip →
      p.dp = c.dp → c.step.2.arch = c.arch := by
    rintro p h_plan h_code h_data h_p_ip h_p_dp
    rw [step_snd, arch, code_commit, data_commit, ip_commit, dp_commit, h_plan, h_code, h_data,
      h_p_ip, h_p_dp, Memory.wrap_natCast_of_lt _ h_ip, Memory.wrap_natCast_of_lt _ h_dp]
    rfl
  cases c.exchanges with
  | silent _ _ _ h_plan =>
    rcases h_plan with h_plan | ⟨waiting, h_plan⟩
    · refine h_idle _ h_plan ?_ ?_ ?_ ?_
      · rw [hold, h_init]
        rfl
      · rw [hold, h_init]
        rfl
      · rw [hold, h_boot]
        rfl
      · rw [hold, h_boot]
        rfl
    · exact h_idle _ h_plan rfl rfl rfl rfl
  | put h_verdict | get h_verdict | other h_verdict =>
    rw [h_verdict] at h_step
    cases h_step

theorem range_step (c : Core) :
    c.step.2.ip < c.step.2.code.size ∧ c.step.2.dp < c.step.2.data.size :=
  ⟨c.ip_commit_lt c.plan, c.dp_commit_lt c.plan⟩

end Core

/-! ### Progress along a stream of input -/

/-- How far a core has come. -/
structure Progress where
  arch : Arch
  /-- The bytes that were consumed. -/
  consumed : List UInt8
  /-- The bytes that were sent. -/
  emitted : List UInt8

namespace Progress

variable (stream : List UInt8)

/-- The core that carries out the next instruction, with the next byte of the stream. -/
def core (s : Progress) : Core := s.arch.unhindered (stream.getD s.consumed.length 0)

/-- One instruction without hindrance. -/
def next (s : Progress) : Progress where
  arch := (s.core stream).step.2.arch
  consumed :=
    if (s.core stream).plan.taken then s.consumed ++ [stream.getD s.consumed.length 0]
    else s.consumed
  emitted := s.emitted ++ (s.core stream).plan.sent.toList

/-- A number of instructions without hindrance. -/
def after (s : Progress) : ℕ → Progress
  | 0 => s
  | count + 1 => (s.after count).next stream

/-- **What was consumed and sent stays so.** -/
theorem after_mono (s : Progress) {first second : ℕ} (h : first ≤ second) :
    (s.after stream first).consumed <+: (s.after stream second).consumed ∧
      (s.after stream first).emitted <+: (s.after stream second).emitted := by
  induction second, h using Nat.le_induction with
  | base => exact ⟨List.prefix_refl _, List.prefix_refl _⟩
  | succ count _ ih =>
    obtain ⟨h_consumed, h_emitted⟩ := ih
    refine ⟨h_consumed.trans ?_, h_emitted.trans (List.prefix_append _ _)⟩
    rw [after, next]
    dsimp only
    split
    · exact List.prefix_append _ _
    · exact List.prefix_refl _

end Progress

namespace Board

/-! ### Schedules -/

/-- The actions of a schedule: runs, input, and what the host does with output. -/
inductive Action.Scheduled : Action → Prop
  | step : Scheduled .step
  | run (count : Int) : Scheduled (.run count)
  | runTo (address limit : Int) : Scheduled (.runTo address limit)
  | runUntilOutput (wanted limit : Int) : Scheduled (.runUntilOutput wanted limit)
  | inject (bytes : List UInt8) : Scheduled (.terminal (.inject bytes))
  | accept (flag : Bool) : Scheduled (.terminal (.accept flag))
  | drain : Scheduled (.terminal .drain)

inductive Move.Scheduled : Move → Prop
  | clock : Scheduled .clock
  | inject (bytes : List UInt8) : Scheduled (.terminal (.inject bytes))
  | accept (flag : Bool) : Scheduled (.terminal (.accept flag))
  | drain : Scheduled (.terminal .drain)

def Move.input : Move → List UInt8
  | .terminal (.inject bytes) => bytes
  | _ => []

def Action.input : Action → List UInt8
  | .terminal (.inject bytes) => bytes
  | _ => []

/-- The input that a schedule queues. -/
def input (actions : List Action) : List UInt8 := actions.flatMap Action.input

theorem flatMap_input_clockMoves (count : ℕ) : (clockMoves count).flatMap Move.input = [] := by
  rw [List.flatMap_eq_nil_iff]
  intro m h_m
  rw [List.eq_of_mem_replicate h_m]
  rfl

/-- The moves of an action queue what the action queues. -/
theorem Action.Scheduled.flatMap_input {action : Action} (h : action.Scheduled) (b : Board) :
    (b.moves action).flatMap Move.input = action.input := by
  cases h with
  | step | run | runTo => exact flatMap_input_clockMoves _
  | runUntilOutput wanted limit =>
    rw [Board.moves, List.flatMap_append, flatMap_input_clockMoves]
    split <;> rfl
  | inject bytes => exact List.append_nil bytes
  | accept flag | drain => rfl

/-- The moves of a schedule queue the input of the schedule. -/
theorem flatMap_input_sessionMoves {actions : List Action}
    (h : ∀ action ∈ actions, action.Scheduled) (b : Board) :
    (b.sessionMoves actions).flatMap Move.input = input actions := by
  induction actions generalizing b with
  | nil => rfl
  | cons action rest ih =>
    rw [sessionMoves, List.flatMap_append, (h action List.mem_cons_self).flatMap_input,
      ih fun x hx => h x (List.mem_cons_of_mem action hx)]
    rfl

/-- Actions of schedules are made of moves of schedules. -/
theorem Action.Scheduled.moves (action : Action) (h : action.Scheduled) (b : Board) :
    ∀ m ∈ b.moves action, m.Scheduled := by
  have h_clocks : ∀ count, ∀ m ∈ clockMoves count, m.Scheduled := by
    intro count m h_m
    rw [List.eq_of_mem_replicate h_m]
    exact .clock
  intro m h_m
  cases h with
  | step | run | runTo => exact h_clocks _ m h_m
  | runUntilOutput wanted limit =>
    rcases List.mem_append.mp h_m with h_m | h_m
    · exact h_clocks _ m h_m
    · split at h_m
      · rw [List.mem_singleton.mp h_m]
        exact .drain
      · cases h_m
  | inject bytes => rw [List.mem_singleton.mp h_m]; exact .inject bytes
  | accept flag => rw [List.mem_singleton.mp h_m]; exact .accept flag
  | drain => rw [List.mem_singleton.mp h_m]; exact .drain

/-- A board on which a schedule can begin: the core runs, its registers are in range,
and no listener sends bytes back. -/
structure Poised (b : Board) : Prop where
  init : b.core.init = false
  boot : b.core.boot = false
  ip_lt : b.core.ip < b.core.code.size
  dp_lt : b.core.dp < b.core.data.size
  listener : b.terminal.listener ≠ .echo

namespace Poised

variable {b : Board}

/-- **Moves of schedules keep a board poised.** -/
theorem apply (h : b.Poised) {m : Move} (h_m : m.Scheduled) : (m.apply b).Poised := by
  cases h_m with
  | clock =>
    obtain ⟨h_ip, h_dp⟩ := b.drivenCore.range_step
    refine ⟨h.init, h.boot, h_ip, h_dp, ?_⟩
    change b.clock.2.terminal.listener ≠ .echo
    rw [terminal_clock_eq, Terminal.listener_exchange]
    exact h.listener
  | inject | accept | drain => exact ⟨h.init, h.boot, h.ip_lt, h.dp_lt, h.listener⟩

/-- Without an echo a move queues its own input and nothing else. -/
theorem queued_note (h : b.Poised) (l : Ledger) {m : Move} (h_m : m.Scheduled) :
    (l.note b m).queued = l.queued ++ m.input := by
  cases h_m with
  | clock =>
    change (l.note b .clock).queued = l.queued ++ []
    rw [List.append_nil]
    cases h_verdict : b.clock.1 with
    | false => rw [l.note_clock_of_not_retired h_verdict]
    | true => exact (l.note_clock_of_retired h_verdict h.listener).1
  | inject bytes => rfl
  | accept | drain => exact (List.append_nil _).symm

/-- What a row of moves queues is the input of its moves. -/
theorem queued_through (h : b.Poised) (l : Ledger) {moves : List Move}
    (h_moves : ∀ m ∈ moves, m.Scheduled) :
    (l.through b moves).queued = l.queued ++ moves.flatMap Move.input := by
  induction moves generalizing l b with
  | nil => exact (List.append_nil _).symm
  | cons m rest ih =>
    have h_m := h_moves m List.mem_cons_self
    rw [Ledger.through, ih (h.apply h_m) _ fun x hx => h_moves x (List.mem_cons_of_mem m hx),
      h.queued_note l h_m, List.append_assoc, List.flatMap_cons]

end Poised

/-! ### Boards in a session follow the stream -/

/-- The board, with its books, is where a core is after the instructions that retired. -/
structure Follows (stream : List UInt8) (start : Progress) (b : Board) (l : Ledger) : Prop where
  poised : b.Poised
  arch : b.core.arch = (start.after stream l.retired).arch
  queued : l.queued = (start.after stream l.retired).consumed ++ b.terminal.pending
  emitted : (start.after stream l.retired).emitted = l.collected ++ b.terminal.received.toList

namespace Follows

variable {stream : List UInt8} {start : Progress} {l : Ledger} {b : Board}

/-- **A clock follows the stream**, if what was queued is the beginning of it. -/
theorem clock (h : Follows stream start b l) (h_stream : l.queued <+: stream) :
    Follows stream start b.clock.2 (l.note b .clock) := by
  have h_poised := h.poised.apply .clock
  have h_terminal := b.terminal_clock_eq
  obtain ⟨⟨h_init, h_boot, h_ip, h_dp, h_listener⟩, h_arch, h_queued, h_emitted⟩ := h
  cases h_verdict : b.clock.1 with
  | false =>
    -- a stall: nothing that is followed has changed
    have h_same := terminal_clock_of_not_retired h_verdict
    have h_still : b.clock.2.core.arch = b.core.arch :=
      Core.arch_step_of_not_retired (c := b.drivenCore) h_init h_boot h_ip h_dp h_verdict
    rw [l.note_clock_of_not_retired h_verdict]
    exact ⟨h_poised, h_still.trans h_arch, by rw [h_same, h_queued], by rw [h_same, h_emitted]⟩
  | true =>
    obtain ⟨h_same, h_kept, h_count⟩ := l.note_clock_of_retired h_verdict h_listener
    generalize h_s : start.after stream l.retired = s at h_arch h_queued h_emitted
    have h_next : start.after stream (l.note b .clock).retired = s.next stream := by
      rw [h_count, Progress.after, h_s]
    -- the byte offered, if there is one, is the next byte of the stream
    have h_byte : b.drivenCore.link.input.valid = true →
        Bits.toByte b.drivenCore.link.input.bits = stream.getD s.consumed.length 0 := by
      intro h_valid
      obtain ⟨rest, h_first⟩ := pending_of_valid h_valid
      obtain ⟨more, rfl⟩ := h_stream
      rw [h_queued, h_first]
      simp
    have h_core : s.core stream
        = b.drivenCore.arch.unhindered (stream.getD s.consumed.length 0) := by
      rw [Progress.core, ← h_arch]
      rfl
    have h_plan : (s.core stream).plan = b.drivenCore.plan := by
      rw [h_core]
      exact Core.plan_unhindered (c := b.drivenCore) h_init h_boot h_verdict h_byte
    refine ⟨h_poised, ?_, ?_, ?_⟩
    -- registers and memories
    · rw [h_next, Progress.next, h_core]
      exact (Core.arch_step_unhindered (c := b.drivenCore) h_init h_boot h_verdict h_byte).symm
    -- the queue: what a `get` consumed has left it
    · rw [h_same, h_next, h_queued, Progress.next, h_plan, h_terminal,
        Terminal.pending_exchange _ h_listener]
      cases h_taken : b.drivenCore.plan.taken with
      | false => rfl
      | true =>
        have h_valid := Core.valid_of_taken h_taken
        obtain ⟨rest, h_first⟩ := pending_of_valid h_valid
        rw [if_pos rfl, if_pos rfl, h_first, h_byte h_valid, List.append_assoc]
        rfl
    -- the output: what a `put` sent has arrived
    · rw [h_kept, h_next, Progress.next, h_plan, h_terminal, Terminal.received_exchange,
        ← List.append_assoc, ← h_emitted]

/-- **A move follows the stream**, if what is queued then is the beginning of it. -/
theorem note (h : Follows stream start b l) {m : Move} (h_m : m.Scheduled)
    (h_stream : (l.note b m).queued <+: stream) :
    Follows stream start (m.apply b) (l.note b m) := by
  have h_poised := h.poised.apply h_m
  cases h_m with
  | clock =>
    refine h.clock ?_
    cases h_verdict : b.clock.1 with
    | false => rwa [l.note_clock_of_not_retired h_verdict] at h_stream
    | true => rwa [(l.note_clock_of_retired h_verdict h.poised.listener).1] at h_stream
  | accept flag => exact ⟨h_poised, h.arch, h.queued, h.emitted⟩
  | inject bytes =>
    refine ⟨h_poised, h.arch, ?_, h.emitted⟩
    change l.queued ++ bytes = _ ++ (b.terminal.pending ++ bytes)
    rw [h.queued, List.append_assoc]
    rfl
  | drain =>
    refine ⟨h_poised, h.arch, h.queued, ?_⟩
    change _ = (l.collected ++ b.terminal.received.toList) ++ []
    rw [List.append_nil]
    exact h.emitted

/-- **A schedule follows the stream**, if all that it queues is the beginning of it. -/
theorem through (h : Follows stream start b l) {moves : List Move}
    (h_moves : ∀ m ∈ moves, m.Scheduled) (h_stream : (l.through b moves).queued <+: stream) :
    Follows stream start (b.after moves) (l.through b moves) := by
  -- what is queued only grows, so on the way it is the beginning of the stream as well
  refine Ledger.through_induction (P := Move.Scheduled)
    (I := fun b l => l.queued <+: stream → Follows stream start b l) ?_ h_moves (fun _ => h)
    h_stream
  intro b' l' m h_m h_l h_queued
  exact (h_l ((l'.queued_prefix_note b' m).trans h_queued)).note h_m h_queued

/-- **A schedule is where the stream has it**, whatever its timing. The stream begins
with all that is queued. -/
theorem schedule (h : b.Poised) (h_received : b.terminal.received = #[])
    {actions : List Action} (h_actions : ∀ action ∈ actions, action.Scheduled)
    (h_stream : b.terminal.pending ++ Board.input actions <+: stream) :
    let l := (Ledger.opening b).through b (b.sessionMoves actions)
    let last := (Progress.mk b.core.arch [] []).after stream l.retired
    (b.session actions).core.arch = last.arch ∧
      b.terminal.pending ++ Board.input actions
        = last.consumed ++ (b.session actions).terminal.pending ∧
      b.sessionBytes actions ++ (b.session actions).terminal.received.toList = last.emitted := by
  intro l last
  have h_moves := forall_mem_sessionMoves Action.Scheduled.moves h_actions b
  have h_queued : l.queued = b.terminal.pending ++ Board.input actions := by
    rw [h.queued_through _ h_moves, flatMap_input_sessionMoves h_actions]
    rfl
  have h_start : Follows stream ⟨b.core.arch, [], []⟩ b (Ledger.opening b) := by
    refine ⟨h, rfl, rfl, ?_⟩
    rw [h_received]
    rfl
  have h_last := h_start.through h_moves (h_queued ▸ h_stream)
  have h_collected := (Ledger.opening b).collected_through_sessionMoves b actions
  rw [after_sessionMoves] at h_last
  refine ⟨h_last.arch, h_queued ▸ h_last.queued, ?_⟩
  rw [h_last.emitted, h_collected]
  rfl

end Follows

/-- **Timing makes no difference.** Two boards agree in what programs can see and in
the bytes that wait; they hold no output, and their listeners send nothing back. Two
schedules are given whose inputs agree as far as both go. If equally many instructions
retire in them, the boards agree again in what programs can see, in the bytes consumed
and in the bytes sent, collected or not. If fewer retire in the first, what it consumed
and what it sent are the beginnings of what the second did. -/
theorem timing_independence {b₁ b₂ : Board} (h₁ : b₁.Poised) (h₂ : b₂.Poised)
    (h_arch : b₁.core.arch = b₂.core.arch) (h_pending : b₁.terminal.pending = b₂.terminal.pending)
    (h_received₁ : b₁.terminal.received = #[]) (h_received₂ : b₂.terminal.received = #[])
    {first second : List Action} (h_first : ∀ action ∈ first, action.Scheduled)
    (h_second : ∀ action ∈ second, action.Scheduled)
    (h_input : input first <+: input second ∨ input second <+: input first) :
    let retired₁ := ((Ledger.opening b₁).through b₁ (b₁.sessionMoves first)).retired
    let retired₂ := ((Ledger.opening b₂).through b₂ (b₂.sessionMoves second)).retired
    let emitted₁ := b₁.sessionBytes first ++ (b₁.session first).terminal.received.toList
    let emitted₂ := b₂.sessionBytes second ++ (b₂.session second).terminal.received.toList
    ∃ consumed₁ consumed₂,
      b₁.terminal.pending ++ input first = consumed₁ ++ (b₁.session first).terminal.pending ∧
      b₂.terminal.pending ++ input second = consumed₂ ++ (b₂.session second).terminal.pending ∧
      (retired₁ = retired₂ →
        (b₁.session first).core.arch = (b₂.session second).core.arch ∧ consumed₁ = consumed₂ ∧
          emitted₁ = emitted₂) ∧
      (retired₁ ≤ retired₂ → consumed₁ <+: consumed₂ ∧ emitted₁ <+: emitted₂) := by
  intro retired₁ retired₂ emitted₁ emitted₂
  -- the longer of the two inputs is a stream for both, and the boards follow it from the
  -- same start
  obtain ⟨stream, h_stream₁, h_stream₂⟩ : ∃ stream,
      b₁.terminal.pending ++ input first <+: stream ∧
        b₂.terminal.pending ++ input second <+: stream := by
    rw [h_pending]
    rcases h_input with h_input | h_input
    · exact ⟨_, List.prefix_append_right_inj _ |>.mpr h_input, List.prefix_refl _⟩
    · exact ⟨_, List.prefix_refl _, List.prefix_append_right_inj _ |>.mpr h_input⟩
  obtain ⟨h_core₁, h_consumed₁, h_emitted₁⟩ :=
    Follows.schedule h₁ h_received₁ h_first h_stream₁
  obtain ⟨h_core₂, h_consumed₂, h_emitted₂⟩ :=
    Follows.schedule h₂ h_received₂ h_second h_stream₂
  rw [← h_arch] at h_core₂ h_consumed₂ h_emitted₂
  refine ⟨_, _, h_consumed₁, h_consumed₂, fun h_eq => ?_, fun h_le => ?_⟩
  · have h_same := congrArg (Progress.after stream ⟨b₁.core.arch, [], []⟩) h_eq
    exact ⟨(h_core₁.trans (congrArg Progress.arch h_same)).trans h_core₂.symm,
      congrArg Progress.consumed h_same,
      (h_emitted₁.trans (congrArg Progress.emitted h_same)).trans h_emitted₂.symm⟩
  · obtain ⟨h_consumed, h_emitted⟩ :=
      Progress.after_mono stream ⟨b₁.core.arch, [], []⟩ h_le
    refine ⟨h_consumed, ?_⟩
    change b₁.sessionBytes first ++ _ <+: b₂.sessionBytes second ++ _
    rw [h_emitted₁, h_emitted₂]
    exact h_emitted

/-- A board with a program that passes two bytes on. -/
def relayBoard : Board :=
  ((new ⟨⟨2, Nat.zero_lt_two⟩, ⟨1, Nat.zero_lt_one⟩⟩).loadSource ",.,." #[] true).board.boot.board

/-- The input comes at once and output is accepted at once. -/
def promptSchedule : List Action := [.terminal (.inject [7, 9]), .run 2]

/-- The input comes late, and output is accepted later still. -/
def slowSchedule : List Action :=
  [.run 3, .terminal (.accept false), .terminal (.inject [7]), .runTo 2 5, .terminal (.accept true),
    .step, .terminal .drain]

/-- Two instructions retire under both schedules, and the same byte is passed on. -/
theorem timing_independence_stalls :
    let retired (actions : List Action) :=
      ((Ledger.opening relayBoard).through relayBoard (relayBoard.sessionMoves actions)).retired
    relayBoard.Poised ∧ retired promptSchedule = 2 ∧ retired slowSchedule = 2 ∧
      (relayBoard.session promptSchedule).core.arch = (relayBoard.session slowSchedule).core.arch ∧
      relayBoard.sessionBytes promptSchedule
          ++ (relayBoard.session promptSchedule).terminal.received.toList
        = relayBoard.sessionBytes slowSchedule
          ++ (relayBoard.session slowSchedule).terminal.received.toList := by
  intro retired
  have h_poised : relayBoard.Poised :=
    ⟨by decide +kernel, by decide +kernel, by decide +kernel, by decide +kernel, by decide +kernel⟩
  have h_prompt : ∀ action ∈ promptSchedule, action.Scheduled := by
    simp only [promptSchedule, List.forall_mem_cons]
    exact ⟨.inject _, .run _, by simp⟩
  have h_slow : ∀ action ∈ slowSchedule, action.Scheduled := by
    simp only [slowSchedule, List.forall_mem_cons]
    exact ⟨.run _, .accept _, .inject _, .runTo _ _, .accept _, .step, .drain, by simp⟩
  have h_two : retired promptSchedule = 2 := by decide +kernel
  have h_two' : retired slowSchedule = 2 := by decide +kernel
  obtain ⟨consumed₁, consumed₂, -, -, h_equal, -⟩ :=
    timing_independence h_poised h_poised rfl rfl (by decide +kernel) (by decide +kernel) h_prompt
      h_slow (Or.inr (by decide))
  obtain ⟨h_arch, -, h_emitted⟩ := h_equal (h_two.trans h_two'.symm)
  exact ⟨h_poised, h_two, h_two', h_arch, h_emitted⟩

end Board

end TapeProcessor
