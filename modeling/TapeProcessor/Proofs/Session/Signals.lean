import TapeProcessor.Proofs.Session.Timing

/-!
# What the clocks of a session show

From outside a clock shows two things: whether an instruction retired, and the signals
on the link after it. `Board.shown b moves` lists them for each clock of a row of moves
that begins on the board `b`.

Which bytes passed can be read off the signals alone. A byte was sent if the output
channel fired (`Link.sent?`), and one was consumed if the core took it (`Link.taken?`).
`Board.passes_shown` says that these bytes account for the terminal, whose output may
be collected on the way and whose input may be queued.
-/

namespace TapeProcessor

/-- The byte that a clock with these signals sent. -/
def Link.sent? (l : Link) : Option UInt8 :=
  if l.output.fire then some (Bits.toByte l.output.bits) else none

/-- The byte that a clock with these signals consumed. -/
def Link.taken? (l : Link) : Option UInt8 :=
  if l.input.taken then some (Bits.toByte l.input.bits) else none

/-! ### The terminal samples the signals -/

namespace Terminal

variable (t : Terminal) (l : Link)

/-- What is received grows by the byte that the signals show as sent. -/
theorem received_sample :
    (t.sample l).received.toList = t.received.toList ++ l.sent?.toList := by
  unfold sample Link.sent?
  cases l.output.fire with
  | false => cases l.input.taken <;> exact (List.append_nil _).symm
  | true =>
    -- the channel has fired, and the byte on it is received whatever was taken
    have h_push : (t.receive (Bits.toByte l.output.bits)).received.toList
        = t.received.toList ++ [Bits.toByte l.output.bits] := by
      rw [received_receive, Array.toList_push]
    cases l.input.taken <;> exact h_push

theorem accepting_sample : (t.sample l).accepting = t.accepting := by
  unfold sample receive hear
  cases l.output.fire <;> cases l.input.taken <;> cases t.listener <;> rfl

theorem listener_sample : (t.sample l).listener = t.listener := by
  unfold sample
  cases l.output.fire with
  | false => cases l.input.taken <;> rfl
  | true => cases l.input.taken <;> exact t.listener_receive _

/-- Without an echo the queue loses its first byte if the core has taken it. -/
theorem pending_sample (h : t.listener ≠ .echo) :
    (t.sample l).pending = if l.input.taken then t.pending.tail else t.pending := by
  unfold sample
  cases l.output.fire with
  | false => cases l.input.taken <;> rfl
  | true =>
    have h_kept : (t.receive (Bits.toByte l.output.bits)).pending = t.pending := by
      rw [pending_receive, if_neg h]
    cases l.input.taken with
    | false => exact h_kept
    | true => exact congrArg List.tail h_kept

end Terminal

namespace Board

variable {b : Board} {m : Move} {moves : List Move}

/-- What a move shows on the board `b`: a clock shows whether an instruction retired, and
the signals after it. -/
def Move.shows (b : Board) : Move → List (Bool × Link)
  | .clock => [(b.clock.1, b.clock.2.core.link)]
  | _ => []

/-- What the clocks of a row of moves show. -/
def shown (b : Board) : List Move → List (Bool × Link)
  | [] => []
  | m :: rest => m.shows b ++ (m.apply b).shown rest

theorem shows_of_ne_clock (h : m ≠ .clock) : m.shows b = [] := by
  cases m with
  | clock => exact absurd rfl h
  | core | link | terminal | loaded | started => rfl

theorem shown_append (b : Board) (first second : List Move) :
    b.shown (first ++ second) = b.shown first ++ (b.after first).shown second := by
  induction first generalizing b with
  | nil => rfl
  | cons m rest ih =>
    calc b.shown (m :: (rest ++ second))
        = m.shows b ++ (m.apply b).shown (rest ++ second) := rfl
      _ = m.shows b ++ ((m.apply b).shown rest ++ ((m.apply b).after rest).shown second) := by
        rw [ih]
      _ = b.shown (m :: rest) ++ (b.after (m :: rest)).shown second :=
        (List.append_assoc _ _ _).symm

/-- The number of instructions that retire is shown. -/
theorem retired_eq_countP (b : Board) (count : ℕ) :
    Clock.retired clock count b = (b.shown (clockMoves count)).countP (·.1) := by
  induction count generalizing b with
  | zero => rfl
  | succ count ih =>
    have h_shown : b.shown (clockMoves (count + 1))
        = (b.clock.1, b.clock.2.core.link) :: b.clock.2.shown (clockMoves count) := rfl
    -- the first clock, and then those of the rest of the run
    rw [Clock.retired_succ, ih, h_shown, List.countP_cons, Nat.add_comm]
    cases b.clock.1 <;> rfl

/-- The bytes that were sent on clocks with these signals. -/
def sentOn (shown : List (Bool × Link)) : List UInt8 := shown.filterMap (·.2.sent?)

/-- The bytes that were consumed on clocks with these signals. -/
def takenOn (shown : List (Bool × Link)) : List UInt8 := shown.filterMap (·.2.taken?)

/-- On the board `b`, these bytes are consumed and sent by the core during a row of
moves. The input that was there and that was queued is what is consumed, and behind it
what still waits; what is collected and what is still held at the end is what was held
before, and behind it what is sent. -/
structure Passes (b : Board) (moves : List Move) (consumed emitted : List UInt8) : Prop where
  input : b.terminal.pending ++ moves.flatMap Move.input
    = consumed ++ (b.after moves).terminal.pending
  output : (Ledger.empty.through b moves).collected ++ (b.after moves).terminal.received.toList
    = b.terminal.received.toList ++ emitted

/-- What is collected and held after a move, by what the move shows. -/
theorem received_note (l : Ledger) (h : m.Scheduled) :
    (l.note b m).collected ++ (m.apply b).terminal.received.toList
      = l.collected ++ (b.terminal.received.toList ++ sentOn (m.shows b)) := by
  cases h with
  | clock =>
    have h_sent : sentOn (Move.clock.shows b) = b.clock.2.core.link.sent?.toList := by
      change List.filterMap _ [(b.clock.1, b.clock.2.core.link)] = _
      rw [List.filterMap_cons]
      cases b.clock.2.core.link.sent? <;> rfl
    rw [l.collected_note b (by simp), h_sent]
    exact congrArg (l.collected ++ ·) (b.terminal.received_sample b.clock.2.core.link)
  | inject | accept => exact congrArg (l.collected ++ ·) (List.append_nil _).symm
  | drain => exact List.append_assoc _ _ _

/-- What is collected and held after a row of moves, by what its clocks show. -/
theorem received_through (l : Ledger) (h_moves : ∀ m ∈ moves, m.Scheduled) :
    (l.through b moves).collected ++ (b.after moves).terminal.received.toList
      = l.collected ++ (b.terminal.received.toList ++ sentOn (b.shown moves)) := by
  induction moves generalizing l b with
  | nil => exact congrArg (l.collected ++ ·) (List.append_nil _).symm
  | cons m rest ih =>
    have h_sent : sentOn (b.shown (m :: rest))
        = sentOn (m.shows b) ++ sentOn ((m.apply b).shown rest) := List.filterMap_append
    -- the first move by what it shows, the others by the induction
    rw [Ledger.through, after_cons, ih _ fun x hx => h_moves x (List.mem_cons_of_mem m hx),
      ← List.append_assoc, received_note l (h_moves m List.mem_cons_self), h_sent]
    simp only [List.append_assoc]

/-- What waits and is queued on a move is what it shows as consumed, and what waits then. -/
theorem pending_note (h : b.terminal.listener ≠ .echo) (h_m : m.Scheduled) :
    b.terminal.pending ++ m.input = takenOn (m.shows b) ++ (m.apply b).terminal.pending := by
  cases h_m with
  | clock =>
    have h_taken : takenOn (Move.clock.shows b) = b.clock.2.core.link.taken?.toList := by
      change List.filterMap _ [(b.clock.1, b.clock.2.core.link)] = _
      rw [List.filterMap_cons]
      cases b.clock.2.core.link.taken? <;> rfl
    have h_pending : b.clock.2.terminal.pending
        = if b.drivenCore.plan.taken then b.terminal.pending.tail else b.terminal.pending :=
      b.terminal.pending_sample b.clock.2.core.link h
    have h_signals : b.clock.2.core.link.taken? = if b.drivenCore.plan.taken then
        some (Bits.toByte b.drivenCore.link.input.bits) else none := rfl
    change b.terminal.pending ++ [] = _ ++ b.clock.2.terminal.pending
    rw [List.append_nil, h_taken, h_signals, h_pending]
    cases h_plan : b.drivenCore.plan.taken with
    | false => rfl
    | true =>
      -- the byte that was taken is the first one that waited
      obtain ⟨rest, h_first⟩ := pending_of_valid (Core.valid_of_taken h_plan)
      rw [if_pos rfl, if_pos rfl, h_first]
      rfl
  | inject bytes => rfl
  | accept | drain => exact List.append_nil _

/-- What waits and is queued on a row of moves is consumed on its clocks, or waits in the end. -/
theorem pending_after (h : b.terminal.listener ≠ .echo) (h_moves : ∀ m ∈ moves, m.Scheduled) :
    b.terminal.pending ++ moves.flatMap Move.input
      = takenOn (b.shown moves) ++ (b.after moves).terminal.pending := by
  induction moves generalizing b with
  | nil => exact List.append_nil _
  | cons m rest ih =>
    have h_m := h_moves m List.mem_cons_self
    -- no move that is scheduled sets a listener
    have h_listener : (m.apply b).terminal.listener ≠ .echo := by
      cases h_m with
      | clock =>
        change (b.terminal.sample b.clock.2.core.link).listener ≠ .echo
        rwa [Terminal.listener_sample]
      | inject | accept | drain => exact h
    have h_taken : takenOn (b.shown (m :: rest))
        = takenOn (m.shows b) ++ takenOn ((m.apply b).shown rest) := List.filterMap_append
    rw [List.flatMap_cons, ← List.append_assoc, pending_note h h_m, List.append_assoc,
      ih h_listener fun x hx => h_moves x (List.mem_cons_of_mem m hx), h_taken, after_cons,
      List.append_assoc]

/-- **The bytes that pass are shown**, if no listener sends them back. -/
theorem passes_shown (h : b.terminal.listener ≠ .echo) (h_moves : ∀ m ∈ moves, m.Scheduled) :
    b.Passes moves (takenOn (b.shown moves)) (sentOn (b.shown moves)) :=
  ⟨pending_after h h_moves, received_through .empty h_moves⟩

end Board

end TapeProcessor
