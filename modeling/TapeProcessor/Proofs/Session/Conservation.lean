import TapeProcessor.Proofs.Board.Exchange
import TapeProcessor.Proofs.Session.Ledger

/-!
# No byte is lost, doubled or moved

The books of a session balance at every moment (`Board.conservation`): what was
queued is what `get` instructions stored, in this order, followed by what is still
queued; what `put` instructions sent is what the host collected, followed by what it
has still to collect; and the listener heard what was sent while it was set.

The sessions are those in which only operations of the board clock the core, and
the terminal is not made to drive or sample by hand (`Action.Orderly`). Everything
else is free: refused operations, signals and memories set by hand, an echo that
queues a byte in the middle of a clock.

`Ledger.Balanced` is the invariant. A clock keeps it by what a core can exchange
(`Core.Exchanges`): a byte that a `get` takes is the first one of the queue, since
this is what the terminal offered before the clock and removes after it.
-/

namespace TapeProcessor

/-- An action that does not clock the core, and leaves the data pointer in range. -/
def Core.Action.Orderly (cells : Nat) : Core.Action → Prop
  | .step | .run _ => False
  | .setDp address => address < cells
  | _ => True

/-- An action that neither drives nor samples the link. -/
def Terminal.Action.Orderly : Terminal.Action → Prop
  | .drive | .sample => False
  | _ => True

namespace Board

/-- An action that clocks the core only through the board, where the data memory has
so many cells. -/
def Action.Orderly (cells : Nat) : Action → Prop
  | .core action => action.Orderly cells
  | .terminal action => action.Orderly
  | _ => True

def Move.Orderly (cells : Nat) : Move → Prop
  | .core action => action.Orderly cells
  | .terminal action => action.Orderly
  | _ => True

/-! ### The moves of orderly actions -/

theorem Move.Internal.orderly {words cells : Nat} {m : Move} (h : m.Internal words) :
    m.Orderly cells := by
  cases h <;> trivial

/-- Orderly actions are made of orderly moves. -/
theorem Action.Orderly.moves {cells : Nat} (action : Action) (h : action.Orderly cells)
    (b : Board) : ∀ m ∈ b.moves action, m.Orderly cells := by
  intro m h_m
  rcases moves_cases h_m with h_internal | ⟨a, rfl, rfl⟩ | ⟨a, rfl, rfl⟩ | ⟨a, rfl | rfl, rfl⟩
  · exact h_internal.orderly
  · exact h
  · trivial
  · exact h
  · trivial

/-! ### The invariant -/

/-- The books balance on a board with so many cells of data memory. -/
structure Ledger.Balanced (l : Ledger) (b : Board) (cells : Nat) : Prop where
  queued : l.queued = l.stored ++ b.terminal.pending
  sent : l.sent = l.collected ++ b.terminal.received.toList
  overheard : l.overheard = b.terminal.heard.toList
  size : b.core.data.size = cells
  dp_lt : b.core.dp < cells

namespace Ledger.Balanced

variable {l : Ledger} {b : Board} {cells : Nat}

/-- A clock keeps the size of data memory and the pointer in it. -/
theorem range_clock (h : l.Balanced b cells) :
    b.clock.2.core.data.size = cells ∧ b.clock.2.core.dp < cells := by
  have h_size : b.clock.2.core.data.size = cells := b.data_size_clock.trans h.size
  refine ⟨h_size, ?_⟩
  rw [← h_size, core_clock, Core.step_snd]
  exact Core.dp_commit_lt _ _

/-- **A clock keeps the balance.** -/
theorem clock (h : l.Balanced b cells) : (l.note b .clock).Balanced b.clock.2 cells := by
  obtain ⟨h_size, h_dp⟩ := h.range_clock
  obtain ⟨h_queued, h_sent, h_overheard, h_cells, h_lt⟩ := h
  have h_terminal := b.terminal_clock_eq
  cases b.drivenCore.exchanges with
  | silent h_verdict h_none h_kept _ =>
    -- nothing passes and nothing is entered
    rw [h_none, h_kept, Terminal.exchange_silent] at h_terminal
    rw [l.note_clock_of_not_retired h_verdict]
    exact ⟨by rw [h_terminal, h_queued], by rw [h_terminal, h_sent],
      by rw [h_terminal, h_overheard], h_size, h_dp⟩
  | put h_verdict h_op h_ready h_some h_kept =>
    rw [h_some, h_kept] at h_terminal
    replace h_terminal : b.clock.2.terminal = b.terminal.receive b.core.cell := h_terminal
    rw [l.note_clock_put h_verdict h_op]
    refine ⟨?_, ?_, ?_, h_size, h_dp⟩
    -- an echo queues the byte behind those that wait
    · rw [h_terminal, Terminal.pending_receive, h_queued]
      dsimp only
      split
      · rw [List.append_assoc]
      · rfl
    · rw [h_terminal, Terminal.received_receive, h_sent, Array.toList_push, List.append_assoc]
    -- a listener hears it, whether it echoes or not
    · rw [h_terminal, Terminal.heard_receive, h_overheard]
      dsimp only
      split
      · rfl
      · rw [Array.toList_push]
  | get h_verdict h_op h_valid h_none h_taken h_write =>
    rw [h_none, h_taken] at h_terminal
    replace h_terminal : b.clock.2.terminal
      = { b.terminal with pending := b.terminal.pending.tail } := h_terminal
    rw [l.note_clock_get h_verdict h_op]
    -- what the terminal offered before the clock is what it removes after it
    obtain ⟨rest, h_pending⟩ := pending_of_valid h_valid
    have h_stored : b.clock.2.core.data.read b.core.dp
        = Bits.toByte b.drivenCore.link.input.bits := by
      rw [core_clock, Core.step_snd, Core.data_commit, h_write]
      change (b.core.data.write b.core.dp _).read b.core.dp = _
      rw [Memory.read_write _ (h_cells ▸ h_lt), if_pos rfl]
    refine ⟨?_, by rw [h_terminal, h_sent], by rw [h_terminal, h_overheard], h_size, h_dp⟩
    -- the byte goes from the front of the queue to the end of what is stored
    rw [h_terminal, h_stored, h_queued, h_pending, List.append_assoc]
    rfl
  | other h_verdict h_put h_get h_none h_kept =>
    rw [h_none, h_kept, Terminal.exchange_silent] at h_terminal
    rw [l.note_clock_other h_verdict h_put h_get]
    exact ⟨by rw [h_terminal, h_queued], by rw [h_terminal, h_sent],
      by rw [h_terminal, h_overheard], h_size, h_dp⟩

/-- What is done to the core between two clocks is not in the books. -/
theorem core (h : l.Balanced b cells) {action : Core.Action} (h_orderly : action.Orderly cells) :
    (l.note b (.core action)).Balanced (Move.apply b (.core action)) cells := by
  obtain ⟨h_queued, h_sent, h_overheard, h_cells, h_lt⟩ := h
  refine ⟨h_queued, h_sent, h_overheard, ?_, ?_⟩
  · cases action with
    | step | run => cases h_orderly
    | store bank address bytes =>
      cases bank with
      | code => exact h_cells
      | data => exact (Memory.size_store _ address bytes).trans h_cells
    | offer bank | withdraw bank => cases bank <;> exact h_cells
    | setIp | setDp | setInit | setBoot => exact h_cells
  · cases action with
    | step | run => cases h_orderly
    | setDp address => exact h_orderly
    | store bank | offer bank | withdraw bank => cases bank <;> exact h_lt
    | setIp | setInit | setBoot => exact h_lt

/-- **Every move keeps the balance.** -/
theorem note (h : l.Balanced b cells) {m : Move} (h_orderly : m.Orderly cells) :
    (l.note b m).Balanced (m.apply b) cells := by
  cases m with
  | clock => exact h.clock
  | core action => exact h.core h_orderly
  | link action => exact ⟨h.queued, h.sent, h.overheard, h.size, h.dp_lt⟩
  | loaded words => exact ⟨h.queued, h.sent, h.overheard, h.size, h.dp_lt⟩
  | started => exact ⟨h.queued, h.sent, h.overheard, h.size, h.dp_lt⟩
  | terminal action =>
    cases action with
    | drive | sample => cases h_orderly
    | accept | listen => exact ⟨h.queued, h.sent, h.overheard, h.size, h.dp_lt⟩
    | inject bytes =>
      refine ⟨?_, h.sent, h.overheard, h.size, h.dp_lt⟩
      change l.queued ++ bytes = l.stored ++ (b.terminal.pending ++ bytes)
      rw [h.queued, List.append_assoc]
    | drain =>
      refine ⟨h.queued, ?_, h.overheard, h.size, h.dp_lt⟩
      change l.sent = (l.collected ++ b.terminal.received.toList) ++ []
      rw [h.sent, List.append_nil]

end Ledger.Balanced

/-- The books of a new board are empty, and so is its terminal. -/
theorem balanced_new (g : Geometry) : Ledger.empty.Balanced (new g) g.data.size where
  queued := rfl
  sent := rfl
  overheard := rfl
  size := Memory.size_zeros g.data
  dp_lt := Nat.lt_of_lt_of_le Nat.zero_lt_two g.data.two_le_size

/-- **No byte is lost, doubled or moved.** In an orderly session on a new board, after
any number of its moves: the bytes ever queued are those stored by `get` instructions,
followed by those that wait; the cells sent by `put` instructions are the bytes
collected, followed by those received since; and what was heard is what was sent while
a listener was set. The bytes collected are the ones that the actions answer with.
Nothing is entered for a clock on which no instruction retires, for a load or for a
boot, and the terminal does not change on them. -/
theorem conservation (g : Geometry) {actions : List Action}
    (h : ∀ action ∈ actions, action.Orderly g.data.size) :
    (∀ moves, moves <+: (new g).sessionMoves actions →
      let b := (new g).after moves
      let l := Ledger.empty.through (new g) moves
      l.queued = l.stored ++ b.terminal.pending ∧
        l.sent = l.collected ++ b.terminal.received.toList ∧
        l.overheard = b.terminal.heard.toList) ∧
    (new g).after ((new g).sessionMoves actions) = (new g).session actions ∧
    (Ledger.empty.through (new g) ((new g).sessionMoves actions)).collected
      = (new g).sessionBytes actions ∧
    ∀ (b : Board) (l : Ledger),
      (b.clock.1 = false → l.note b .clock = l ∧ b.clock.2.terminal = b.terminal) ∧
      ∀ action : Action, action.Prepares →
        l.through b (b.moves action) = l ∧ (b.perform action).board.terminal = b.terminal := by
  refine ⟨fun moves h_front => ?_, after_sessionMoves _ actions, ?_, fun b l => ⟨?_, ?_⟩⟩
  · have h_orderly : ∀ m ∈ moves, m.Orderly g.data.size := fun m h_m =>
      forall_mem_sessionMoves Action.Orderly.moves h (new g) m (h_front.subset h_m)
    -- the invariant holds of a new board, and every move keeps it
    have h_balanced := Ledger.through_induction (I := fun b l => l.Balanced b g.data.size)
      (fun _ _ _ h_m h_l => h_l.note h_m) h_orderly (balanced_new g)
    exact ⟨h_balanced.queued, h_balanced.sent, h_balanced.overheard⟩
  · exact Ledger.empty.collected_through_sessionMoves (new g) actions
  · intro h_verdict
    exact ⟨l.note_clock_of_not_retired h_verdict, terminal_clock_of_not_retired h_verdict⟩
  · intro action h_prepares
    exact l.through_moves_of_prepares b h_prepares

/-- A session in which a byte that was sent comes back and is read again. -/
def echoSession : List Action :=
  [.terminal (.listen .echo), .terminal (.inject [7]), .loadSource ",.," #[] true, .boot, .run 3,
    .terminal .drain]

/-- The byte is queued twice and collected once. -/
theorem conservation_echo :
    let g : Geometry := ⟨⟨2, Nat.zero_lt_two⟩, ⟨1, Nat.zero_lt_one⟩⟩
    let l := Ledger.empty.through (new g) ((new g).sessionMoves echoSession)
    (∀ action ∈ echoSession, action.Orderly g.data.size) ∧ l.queued = [7, 7] ∧
      l.queued = l.stored ++ ((new g).session echoSession).terminal.pending ∧
      (new g).sessionBytes echoSession = [7] := by
  intro g l
  have h_orderly : ∀ action ∈ echoSession, action.Orderly g.data.size := by
    simp [echoSession, Action.Orderly, Terminal.Action.Orderly]
  obtain ⟨h_moments, h_session, -, -⟩ := conservation g h_orderly
  obtain ⟨h_queued, -, -⟩ := h_moments _ (List.prefix_refl _)
  rw [h_session] at h_queued
  exact ⟨h_orderly, by decide +kernel, h_queued, by decide +kernel⟩

end Board

end TapeProcessor
