import TapeProcessor.Board.Basic
import TapeProcessor.Proofs.Core.Course
import TapeProcessor.Proofs.Core.Instruction

/-!
# What passes on a clock of the board

Around a clock the terminal drives the link, the core steps and reports, and the
terminal samples the link. Taken together the terminal exchanges at most one byte
in each direction with the core: `Terminal.exchange` receives the byte that the core
sent and removes the byte that it took.

`Board.terminal_clock_eq` says that this is what every clock does to the terminal,
whether an instruction ran, waited, or the core was held. It needs the order of the
three parts: the core sends a byte only if it found the channel ready, which is what
the terminal then still sees (`Core.ready_of_sent`).
-/

namespace TapeProcessor

namespace Terminal

/-- The terminal after a byte came from the core, if one did, and the core took the
byte offered to it, if it did. -/
def exchange (t : Terminal) (sent : Option UInt8) (taken : Bool) : Terminal :=
  let kept := match sent with
    | some byte => t.receive byte
    | none => t
  if taken then { kept with pending := kept.pending.tail } else kept

@[simp] theorem exchange_silent (t : Terminal) : t.exchange none false = t := rfl

section Receive

variable (t : Terminal) (byte : UInt8)

/-- A byte that arrives is collected, whoever listens. -/
theorem received_receive : (t.receive byte).received = t.received.push byte := by
  unfold receive hear
  cases t.listener <;> rfl

/-- A byte that is echoed is queued behind the others. -/
theorem pending_receive :
    (t.receive byte).pending
      = if t.listener = .echo then t.pending ++ [byte] else t.pending := by
  unfold receive hear
  cases t.listener <;> rfl

/-- Only a listener hears a byte. -/
theorem heard_receive :
    (t.receive byte).heard = if t.listener = .off then t.heard else t.heard.push byte := by
  unfold receive hear
  cases t.listener <;> rfl

theorem listener_receive : (t.receive byte).listener = t.listener := by
  unfold receive hear
  cases t.listener <;> rfl

/-- An exchange leaves the listener in place. -/
theorem listener_exchange (sent : Option UInt8) (taken : Bool) :
    (t.exchange sent taken).listener = t.listener := by
  cases sent with
  | none => cases taken <;> rfl
  | some byte => cases taken <;> exact t.listener_receive byte

/-- What is sent is collected behind what there was. -/
theorem received_exchange (sent : Option UInt8) (taken : Bool) :
    (t.exchange sent taken).received.toList = t.received.toList ++ sent.toList := by
  cases sent with
  | none => cases taken <;> exact (List.append_nil _).symm
  | some byte =>
    have h_push : (t.receive byte).received.toList = t.received.toList ++ [byte] := by
      rw [received_receive, Array.toList_push]
    cases taken <;> exact h_push

/-- Without an echo the queue changes only at its front. -/
theorem pending_exchange (h : t.listener ≠ .echo) (sent : Option UInt8) (taken : Bool) :
    (t.exchange sent taken).pending = if taken then t.pending.tail else t.pending := by
  cases sent with
  | none => cases taken <;> rfl
  | some byte =>
    -- a byte that is not echoed does not join the queue
    have h_kept : (t.receive byte).pending = t.pending := by
      rw [pending_receive, if_neg h]
    cases taken with
    | false => exact h_kept
    | true => exact congrArg List.tail h_kept

end Receive

/-- The lines that the terminal drives say whether it accepts output and what it offers. -/
theorem signals_drive (t : Terminal) (l : Link) :
    (t.drive l).signals = ⟨t.accepting, t.pending.head?⟩ := by
  cases h : t.pending <;> simp [drive, Link.signals, h]

/-- **What the terminal samples is what the core reports**, if no byte is sent to a
terminal that does not accept it. -/
theorem sample_report (t : Terminal) (l : Link) {sent : Option UInt8} {taken : Bool}
    (waiting : Bool) (h : sent.isSome → t.accepting = true) :
    t.sample ((t.drive l).report sent taken waiting) = t.exchange sent taken := by
  cases sent with
  | none => rfl
  | some byte =>
    -- the channel fires, since the terminal was ready and the core offers a byte
    have h_accepting := h rfl
    simp [sample, Link.report, drive, Channel.fire, exchange, h_accepting]

end Terminal

namespace Core

/-- What a core can do on its link on a clock. -/
inductive Exchanges (c : Core) : Prop
  /-- No instruction retires: the core is held, or the instruction waits. -/
  | silent (h_verdict : c.step.1 = false) (h_sent : c.plan.sent = none)
      (h_taken : c.plan.taken = false)
      (h_plan : c.plan = c.hold ∨ ∃ waiting, c.plan = { c.stall with waiting })
  | put (h_verdict : c.step.1 = true) (h_op : c.opcode = .plain .put)
      (h_ready : c.link.output.ready = true) (h_sent : c.plan.sent = some c.cell)
      (h_taken : c.plan.taken = false)
  | get (h_verdict : c.step.1 = true) (h_op : c.opcode = .plain .get)
      (h_valid : c.link.input.valid = true) (h_sent : c.plan.sent = none)
      (h_taken : c.plan.taken = true)
      (h_write : c.plan.dataWrite = some (c.dp, Bits.toByte c.link.input.bits))
  | other (h_verdict : c.step.1 = true) (h_put : c.opcode ≠ .plain .put)
      (h_get : c.opcode ≠ .plain .get) (h_sent : c.plan.sent = none)
      (h_taken : c.plan.taken = false)

/-- **Only `put` sends and only `get` takes**, and only when they retire. -/
theorem exchanges (c : Core) : c.Exchanges := by
  by_cases h_held : (c.init || c.boot) = true
  · -- while the core is held nothing retires
    have h_plan : c.plan = c.hold := if_pos h_held
    exact .silent (by rw [step_fst, h_plan]; rfl) (by rw [h_plan]; rfl) (by rw [h_plan]; rfl)
      (Or.inl h_plan)
  have h_run : c.plan = c.execute := if_neg h_held
  -- an instruction other than the two advances and leaves the link alone
  have h_other : ∀ p : Plan, c.execute = p → p.verdict = .retired → p.sent = none →
      p.taken = false → c.opcode ≠ .plain .put → c.opcode ≠ .plain .get → c.Exchanges := by
    rintro p rfl h_verdict h_sent h_taken h_put h_get
    exact .other (by rw [step_fst, h_run, h_verdict]; rfl) h_put h_get (by rw [h_run, h_sent])
      (by rw [h_run, h_taken])
  -- each course shows its plan, and the plan what is sent and taken
  cases c.course with
  | sends h_op h_ready h_execute =>
    have h_plan := h_run.trans h_execute
    exact .put (by rw [step_fst, h_plan]; rfl) h_op h_ready (by rw [h_plan]) (by rw [h_plan]; rfl)
  | holdsBack _ _ h_execute =>
    have h_plan := h_run.trans h_execute
    exact .silent (by rw [step_fst, h_plan]; rfl) (by rw [h_plan]; rfl) (by rw [h_plan]; rfl)
      (Or.inr ⟨false, h_plan⟩)
  | takes h_op h_valid h_execute =>
    have h_plan := h_run.trans h_execute
    exact .get (by rw [step_fst, h_plan]; rfl) h_op h_valid (by rw [h_plan]; rfl)
      (by rw [h_plan]) (by rw [h_plan])
  | asks _ _ h_execute =>
    have h_plan := h_run.trans h_execute
    exact .silent (by rw [step_fst, h_plan]; rfl) (by rw [h_plan]; rfl) (by rw [h_plan]; rfl)
      (Or.inr ⟨true, h_plan⟩)
  | inc h_op h_execute | dec h_op h_execute | right h_op h_execute | left h_op h_execute
  | skips h_op _ h_execute | enters h_op _ h_execute | returns h_op h_execute =>
    exact h_other _ h_execute rfl rfl rfl (by rw [h_op]; decide) (by rw [h_op]; decide)

/-- A byte is sent only to a terminal that is ready for it. -/
theorem ready_of_sent {c : Core} (h : c.plan.sent.isSome) : c.link.output.ready = true := by
  cases c.exchanges with
  | put _ _ h_ready => exact h_ready
  | silent _ h_sent | get _ _ _ h_sent | other _ _ _ h_sent =>
    rw [h_sent] at h
    cases h

/-- A byte is taken only if one is offered. -/
theorem valid_of_taken {c : Core} (h : c.plan.taken = true) : c.link.input.valid = true := by
  cases c.exchanges with
  | get _ _ h_valid => exact h_valid
  | silent _ _ h_taken | put _ _ _ _ h_taken | other _ _ _ _ h_taken =>
    rw [h_taken] at h
    cases h

end Core

namespace Board

/-! ### The board after a clock -/

/-- No clock changes the size of code memory. -/
theorem code_size_clock (b : Board) : b.clock.2.core.code.size = b.core.code.size := by
  rw [core_clock, Core.step_snd, Core.code_commit, Memory.size_apply]
  rfl

/-- No clock changes the size of data memory. -/
theorem data_size_clock (b : Board) : b.clock.2.core.data.size = b.core.data.size := by
  rw [core_clock, Core.step_snd, Core.data_commit, Memory.size_apply]
  rfl

/-- **Every clock is an exchange.** -/
theorem terminal_clock_eq (b : Board) :
    b.clock.2.terminal
      = b.terminal.exchange b.drivenCore.plan.sent b.drivenCore.plan.taken := by
  rw [terminal_clock]
  exact b.terminal.sample_report b.core.link b.drivenCore.plan.waiting
    fun h_sent => Core.ready_of_sent h_sent

/-- Only an instruction that retires reaches the terminal. -/
theorem terminal_clock_of_not_retired {b : Board} (h : b.clock.1 = false) :
    b.clock.2.terminal = b.terminal := by
  rw [terminal_clock_eq]
  cases b.drivenCore.exchanges with
  | silent _ h_sent h_taken => rw [h_sent, h_taken, Terminal.exchange_silent]
  | put h_verdict | get h_verdict | other h_verdict =>
    rw [clock_fst, h_verdict] at h
    cases h

/-- What the core is given on a clock is what the terminal has at that time. -/
theorem signals_drivenCore (b : Board) :
    b.drivenCore.link.signals = ⟨b.terminal.accepting, b.terminal.pending.head?⟩ :=
  b.terminal.signals_drive b.core.link

/-- The byte that is offered to the core is the first one that waits. -/
theorem pending_of_valid {b : Board} (h : b.drivenCore.link.input.valid = true) :
    ∃ rest, b.terminal.pending = Bits.toByte b.drivenCore.link.input.bits :: rest := by
  have h_head := congrArg Signals.input b.signals_drivenCore
  rw [Link.signals, h, if_pos rfl] at h_head
  exact List.head?_eq_some_iff.mp h_head.symm

end Board

end TapeProcessor
