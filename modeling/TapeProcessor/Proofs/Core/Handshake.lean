import TapeProcessor.Proofs.Core.Access

/-!
# Handshakes and the account of clocks

What a clock shows on the channels and adds to the counters agrees with what became of
the instruction, whoever drives the other side and whatever the clock before has left
there. `Core.Lawful` states it as a relation between the core before a clock, whether an
instruction retired, and the core after it:

* output is valid just after a `put` that retired, and `taken` is high just after a
  `get` that retired; such a clock found the channel available;
* the core is ready for input just after a `get` that found none, so its input channel
  never fires on the signals that a clock leaves;
* a clock of run mode on which nothing retires is a stall, and no other is.

The plan of every clock has this agreement in it (`Core.orderly_plan`), by the courses
that an instruction can take. The signals and counters are written from the plan alone,
with nothing kept from before, and so follow the laws (`Core.lawful_step`). Added up
over a run, each clock is a retirement, a stall or a clock on which the core was held
(`Core.account`). `Core.handshake` puts both together.
-/

namespace TapeProcessor

/-- What a plan does on the channels fits what becomes of the instruction. -/
structure Plan.Orderly (p : Plan) (c : Core) : Prop where
  sends : p.sent.isSome ↔ p.verdict = .retired ∧ c.opcode = .plain .put
  /-- A byte that is sent is the cell, for a channel that is ready. -/
  sent : ∀ byte ∈ p.sent, c.link.output.ready = true ∧ byte = c.cell ∧ p.ip = c.ip + 1
  takes : p.taken = true ↔ p.verdict = .retired ∧ c.opcode = .plain .get
  took : p.taken = true → c.link.input.valid = true
  waits : p.waiting = true ↔
    p.verdict = .stalled ∧ c.opcode = .plain .get ∧ c.link.input.valid = false

namespace Plan

variable {p : Plan} {c : Core}

/-- A plan that leaves the channels alone is orderly, unless its instruction is one for
the channels. -/
theorem orderly_of_quiet (h_sent : p.sent = none) (h_taken : p.taken = false)
    (h_waiting : p.waiting = false)
    (h : p.verdict = .held ∨ (c.opcode ≠ .plain .put ∧ c.opcode ≠ .plain .get)) :
    p.Orderly c := by
  have h_put : ¬ (p.verdict = .retired ∧ c.opcode = .plain .put) := by
    rintro ⟨h_verdict, h_op⟩
    rcases h with h | h
    · rw [h] at h_verdict
      cases h_verdict
    · exact h.1 h_op
  -- only an instruction that runs could be one for the channels
  have h_get : p.verdict ≠ .held → c.opcode ≠ .plain .get := fun h_verdict =>
    (h.resolve_left h_verdict).2
  refine ⟨by simp [h_sent, h_put], by simp [h_sent], ?_, by simp [h_taken], ?_⟩
  · refine iff_of_false (by simp [h_taken]) fun ⟨h_verdict, h_op⟩ => ?_
    exact h_get (by simp [h_verdict]) h_op
  · refine iff_of_false (by simp [h_waiting]) fun ⟨h_verdict, h_op, _⟩ => ?_
    exact h_get (by simp [h_verdict]) h_op

end Plan

namespace Core

/-! ### The laws of one clock -/

/-- **Every plan is orderly.** -/
theorem orderly_plan (c : Core) : c.plan.Orderly c := by
  rcases c.plan_cases with ⟨-, h_hold⟩ | ⟨-, h_run⟩
  · rw [h_hold]
    exact Plan.orderly_of_quiet rfl rfl rfl (Or.inl rfl)
  rw [h_run]
  cases c.course with
  | sends h_op h_ready h_plan =>
    rw [h_plan]
    exact ⟨by simp [advance, h_op], by simp [advance, h_ready], by simp [advance, h_op],
      by simp [advance], by simp [advance]⟩
  | holdsBack h_op _ h_plan =>
    rw [h_plan]
    exact ⟨by simp [stall, advance], by simp [stall, advance], by simp [stall, advance],
      by simp [stall, advance], by simp [stall, advance, h_op]⟩
  | takes h_op h_valid h_plan =>
    rw [h_plan]
    exact ⟨by simp [advance, h_op], by simp [advance], by simp [advance, h_op],
      by simp [h_valid], by simp [advance]⟩
  | asks h_op h_valid h_plan =>
    rw [h_plan]
    exact ⟨by simp [stall, advance], by simp [stall, advance], by simp [stall, advance],
      by simp [stall, advance], by simp [stall, h_op, h_valid]⟩
  | inc h_op h_plan | dec h_op h_plan | right h_op h_plan | left h_op h_plan
  | skips h_op _ h_plan | enters h_op _ h_plan | returns h_op h_plan =>
    rw [h_plan]
    exact Plan.orderly_of_quiet rfl rfl rfl (Or.inr (by rw [h_op]; decide))

/-- What the channels show after a clock and what the counters gain on it, from the core
before the clock and whether an instruction retired. -/
structure Lawful (before : Core) (retired : Bool) (after : Core) : Prop where
  /-- A byte is offered just when a `put` retired. -/
  sends : after.link.output.valid = true ↔ retired = true ∧ before.opcode = .plain .put
  /-- It was accepted, it is the cell, and the pointer goes on to the next word. -/
  sent : after.link.output.valid = true →
    before.link.output.ready = true ∧ after.link.output.bits = before.cell.toNat ∧
      (after.ip : Int) = ((before.ip : Int) + 1) % before.code.size
  silent : after.link.output.valid = false → after.link.output.bits = 0
  /-- A byte is consumed just when a `get` retired. -/
  takes : after.link.input.taken = true ↔ retired = true ∧ before.opcode = .plain .get
  /-- It was offered, and no other one is asked for. -/
  took : after.link.input.taken = true →
    before.link.input.valid = true ∧ after.link.input.ready = false
  /-- A byte is asked for just when a `get` waits for one. -/
  waits : after.link.input.ready = true ↔
    (¬ before.Held ∧ retired = false) ∧ before.opcode = .plain .get ∧
      before.link.input.valid = false
  never_fires : after.link.input.fire = false
  one_channel : after.link.output.valid = true →
    after.link.input.ready = false ∧ after.link.input.taken = false
  cycles : after.cycles = before.cycles + 1
  held : before.Held → retired = false
  stalled : ¬ before.Held ∧ retired = false → after.stalls = before.stalls + 1
  not_stalled : ¬ (¬ before.Held ∧ retired = false) → after.stalls = before.stalls

/-- A stall is a clock of run mode on which nothing retires. -/
theorem stalled_iff (c : Core) :
    c.plan.verdict = .stalled ↔ ¬ c.Held ∧ c.step.1 = false := by
  rw [← executes_iff, Executes, step_fst]
  cases c.plan.verdict <;> decide

/-- **Every clock is lawful**, whatever is driven on the core and left on its link. -/
theorem lawful_step (c : Core) : c.Lawful c.step.1 c.step.2 := by
  have h := c.orderly_plan
  -- the laws speak of the verdict where the core answers with a bit
  have h_retired : c.step.1 = true ↔ c.plan.verdict = .retired := by
    rw [step_fst, beq_iff_eq]
  have h_sends : c.step.2.link.output.valid = true ↔ c.step.1 = true ∧ c.opcode = .plain .put := by
    rw [h_retired]
    exact h.sends
  have h_takes : c.step.2.link.input.taken = true ↔ c.step.1 = true ∧ c.opcode = .plain .get := by
    rw [h_retired]
    exact h.takes
  have h_waits : c.step.2.link.input.ready = true ↔
      (¬ c.Held ∧ c.step.1 = false) ∧ c.opcode = .plain .get ∧ c.link.input.valid = false := by
    rw [← stalled_iff]
    exact h.waits
  -- an instruction that retires does not wait
  have h_ready : c.step.1 = true → c.step.2.link.input.ready = false := fun h_step =>
    Bool.eq_false_iff.mpr fun h_ready =>
      Bool.noConfusion (h_step.symm.trans (h_waits.mp h_ready).1.2)
  have h_stalls : c.step.2.stalls = c.stalls + if c.plan.verdict = .stalled then 1 else 0 :=
    c.stalls_commit c.plan
  refine
    { sends := h_sends
      sent := fun h_valid => ?_
      silent := fun h_valid => ?_
      takes := h_takes
      took := fun h_taken => ⟨h.took h_taken, h_ready (h_takes.mp h_taken).1⟩
      waits := h_waits
      never_fires := ?_
      one_channel := fun h_valid => ⟨h_ready (h_sends.mp h_valid).1, ?_⟩
      cycles := rfl
      held := fun h_held => ?_
      stalled := fun h_stalled => ?_
      not_stalled := fun h_stalled => ?_ }
  · obtain ⟨byte, h_byte⟩ := Option.isSome_iff_exists.mp h_valid
    obtain ⟨h_ready, h_cell, h_ip⟩ := h.sent byte h_byte
    refine ⟨h_ready, ?_, ?_⟩
    · rw [step_snd, commit, h_byte, h_cell]
    · rw [step_snd, ip_commit, Memory.wrap_eq_emod, h_ip]
  · have h_none : c.plan.sent = none :=
      Option.isNone_iff_eq_none.mp (Option.isSome_eq_false_iff.mp h_valid)
    rw [step_snd, commit, h_none]
  -- a byte is asked for only while none is offered
  · refine Bool.eq_false_iff.mpr fun h_fire => ?_
    obtain ⟨h_valid, h_asks⟩ := Bool.and_eq_true_iff.mp h_fire
    have h_none : c.link.input.valid = false := (h_waits.mp h_asks).2.2
    exact Bool.noConfusion (h_none.symm.trans h_valid)
  -- no instruction is for both channels
  · refine Bool.eq_false_iff.mpr fun h_taken => ?_
    have h_op := (h_sends.mp h_valid).2
    rw [(h_takes.mp h_taken).2] at h_op
    cases h_op
  · rw [step_fst, h_held.plan_eq]
    rfl
  · rw [h_stalls, if_pos (c.stalled_iff.mpr h_stalled)]
  · rw [h_stalls, if_neg fun h_verdict => h_stalled (c.stalled_iff.mp h_verdict), Nat.add_zero]

/-! ### The account of a run -/

/-- A run over two rows of inputs is one after the other. -/
theorem through_append (c : Core) (first second : List Inputs) :
    c.through (first ++ second) = (c.through first).through second := by
  induction first generalizing c with
  | nil => rfl
  | cons i first ih => exact ih (c.given i).step.2

/-- A clock is a retirement, a stall, or one on which the core is held. -/
theorem account_step (c : Core) :
    1 + c.stalls = c.step.1.toNat + c.step.2.stalls + c.inputs.holds.toNat := by
  have h_law := c.lawful_step
  -- held, retired or stalled, and each of them moves one of the three numbers
  cases h_holds : c.inputs.holds with
  | true =>
    have h_held : c.Held := c.holds_inputs_iff.mp h_holds
    rw [h_law.held h_held, h_law.not_stalled fun h => h.1 h_held, Bool.toNat_true, Bool.toNat_false]
    omega
  | false =>
    have h_free : ¬ c.Held := fun h => by
      rw [c.holds_inputs_iff.mpr h] at h_holds
      cases h_holds
    cases h_retired : c.step.1 with
    | true =>
      rw [h_law.not_stalled fun h => Bool.noConfusion (h_retired.symm.trans h.2), Bool.toNat_true,
        Bool.toNat_false]
      omega
    | false =>
      rw [h_law.stalled ⟨h_free, h_retired⟩, Bool.toNat_false]
      omega

/-- **Every clock is accounted for.** -/
theorem account (c : Core) (inputs : List Inputs) :
    inputs.length + c.stalls
      = c.retiredOn inputs + (c.through inputs).stalls + inputs.countP Inputs.holds := by
  induction inputs generalizing c with
  | nil => simp [retiredOn, through]
  | cons i inputs ih =>
    -- the first clock by itself, and the rest from the core after it
    have h_step := (c.given i).account_step
    have h_rest := ih (c.given i).step.2
    have h_stalls : (c.given i).stalls = c.stalls := rfl
    have h_count : (i :: inputs).countP Inputs.holds
        = inputs.countP Inputs.holds + i.holds.toNat := by
      rw [List.countP_cons]
      cases i.holds <;> rfl
    rw [inputs_given, h_stalls] at h_step
    rw [List.length_cons, retiredOn, through, h_count]
    omega

/-- Each clock is counted once, whatever becomes of it. -/
theorem cycles_through (c : Core) (inputs : List Inputs) :
    (c.through inputs).cycles = c.cycles + inputs.length := by
  induction inputs generalizing c with
  | nil => rfl
  | cons i inputs ih =>
    rw [through, ih, List.length_cons, Nat.add_comm inputs.length 1, ← Nat.add_assoc]
    rfl

/-- **A run in run mode** retires an instruction on each clock that is no stall. -/
theorem account_run {c : Core} (h : ¬ c.Held) (count : Nat) :
    count + c.stalls = (c.run count).1 + (c.run count).2.stalls := by
  obtain ⟨h_after, h_retired⟩ := c.through_replicate count
  have h_account := c.account (List.replicate count c.inputs)
  rw [h_after, h_retired, List.length_replicate, List.countP_replicate,
    if_neg fun h_holds => h (c.holds_inputs_iff.mp h_holds), Nat.add_zero] at h_account
  rw [run, Int.toNat_natCast, Clock.run_eq]
  exact h_account

/-- **Handshakes and accounts of a core.** Whatever an environment drives on the control
lines, the buses and its side of the link, from any core:

* after every clock of the run the channels and the counters are as `Lawful` says, from
  the core as it was given to the clock;
* each clock is counted, and over the whole run the clocks are the retirements, the
  stalls, and the clocks with one of the control lines high;
* a run on its own with both lines low answers with its number of clocks less the
  growth of the count of stalls. -/
theorem handshake (c : Core) (inputs : List Inputs) :
    (∀ front i back, inputs = front ++ i :: back →
      ((c.through front).given i).Lawful ((c.through front).given i).step.1
        (c.through (front ++ [i]))) ∧
      (c.through inputs).cycles = c.cycles + inputs.length ∧
      (inputs.length : Int)
        = c.retiredOn inputs + (((c.through inputs).stalls : Int) - c.stalls)
          + inputs.countP Inputs.holds ∧
      (c.init = false ∧ c.boot = false → ∀ count : Nat,
        ((c.run count).1 : Int) = count - (((c.run count).2.stalls : Int) - c.stalls)) := by
  refine ⟨fun front i back _ => ?_, c.cycles_through inputs, ?_, fun h_lines count => ?_⟩
  · rw [through_append]
    exact ((c.through front).given i).lawful_step
  · have h_account := c.account inputs
    omega
  · have h_free : ¬ c.Held := by
      rw [Held, h_lines.1, h_lines.2]
      decide
    have h_account := account_run h_free count
    omega

/-- A core at a `get` and then a `put`, with signals of an earlier clock on its link. -/
def relayCore : Core :=
  { new ⟨⟨1, Nat.zero_lt_one⟩, ⟨1, Nat.zero_lt_one⟩⟩ with
    code := (Memory.zeros ⟨1, Nat.zero_lt_one⟩).store 0
      [(Opcode.plain .get).word, (Opcode.plain .put).word]
    link := ⟨⟨true, true, 9⟩, ⟨⟨true, true, 9⟩, true⟩⟩ }

/-- An environment that offers a byte on the second clock, holds the core on the fourth and
accepts a byte on the fifth. -/
def relayInputs : List Inputs :=
  let lines (init ready valid : Bool) (bits : Int) : Inputs :=
    ⟨init, false, .idle, .idle, ready, valid, bits⟩
  [lines false true false 0, lines false false true 300, lines false false false 0,
    lines true true true 7, lines false true true 7]

/-- Two of the five clocks retire, two stall, and one is held. The last one offers what
the second one took, reduced to a byte. -/
theorem handshake_relay :
    relayCore.retiredOn relayInputs = 2 ∧
      (relayCore.through relayInputs).stalls = 2 ∧
      relayInputs.countP Inputs.holds = 1 ∧
      (relayCore.through relayInputs).link.output = ⟨true, true, 44⟩ ∧
      (relayCore.through relayInputs).link.input.fire = false := by
  have h_retired : relayCore.retiredOn relayInputs = 2 := by decide +kernel
  have h_holds : relayInputs.countP Inputs.holds = 1 := by decide
  obtain ⟨h_laws, -, h_account, -⟩ := handshake relayCore relayInputs
  have h_last := h_laws (relayInputs.take 4) (relayInputs.getLast (by decide)) [] rfl
  rw [h_retired, h_holds] at h_account
  refine ⟨h_retired, ?_, h_holds, by decide +kernel, h_last.never_fires⟩
  have h_length : relayInputs.length = 5 := rfl
  have h_before : relayCore.stalls = 0 := rfl
  omega

end Core

end TapeProcessor
