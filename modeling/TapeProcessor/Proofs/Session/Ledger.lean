import TapeProcessor.Proofs.Session.Moments

/-!
# The books of a session

A `Ledger` is kept beside a board and never read by it: what was queued for the core
and what its `get` instructions stored, what its `put` instructions sent, what the
host collected, and how many instructions retired. `Ledger.note` enters one move, on
the evidence of the board before and after it. In particular the entry for a `get`
is the byte found in data memory after the clock, and not the one that was queued.

Two things are known of the books without any invariant. The bytes entered as
collected are the ones the actions answered with (`Ledger.collected_session`), and
nothing is entered on a clock on which no instruction retires, so nothing for a load
or a boot (`Ledger.through_moves_of_prepares`).
-/

namespace TapeProcessor

/-- The bytes with which an action answers. -/
def Outcome.bytes (o : Outcome Reply) : List UInt8 :=
  match o.answer with
  | .ok (.bytes bytes) => bytes.toList
  | _ => []

/-- An answer in a form other than bytes holds none. -/
theorem Outcome.bytes_map {Answer : Type} (o : Outcome Answer) {f : Answer → Reply}
    (h : ∀ answer value, f answer ≠ .bytes value) : (o.map f).bytes = [] := by
  rw [bytes, map]
  cases o.answer with
  | error refusal => rfl
  | ok answer =>
    dsimp only [Except.map]
    split
    · next h_eq => exact absurd (Except.ok.inj h_eq) (h answer _)
    · rfl

namespace Board

/-- What is known of a session from outside. -/
structure Ledger where
  /-- The bytes queued for the core, by the host or by an echo. -/
  queued : List UInt8
  /-- The bytes that `get` instructions stored. -/
  stored : List UInt8
  /-- The cells that `put` instructions sent. -/
  sent : List UInt8
  /-- Those that were sent while a listener was set. -/
  overheard : List UInt8
  /-- The bytes that the host collected. -/
  collected : List UInt8
  /-- The number of instructions that retired. -/
  retired : Nat

namespace Ledger

/-- The ledger of a board that is new. -/
def empty : Ledger := ⟨[], [], [], [], [], 0⟩

/-- The ledger of a board on which the books are opened. -/
def opening (b : Board) : Ledger :=
  { empty with
    queued := b.terminal.pending
    sent := b.terminal.received.toList
    overheard := b.terminal.heard.toList }

/-- Enters a clock on which an instruction retired. -/
def noteRetired (l : Ledger) (b : Board) : Ledger :=
  match b.core.opcode with
  | .plain .put =>
    { l with
      sent := l.sent ++ [b.core.cell]
      overheard := if b.terminal.listener = .off then l.overheard else l.overheard ++ [b.core.cell]
      queued := if b.terminal.listener = .echo then l.queued ++ [b.core.cell] else l.queued
      retired := l.retired + 1 }
  | .plain .get =>
    { l with
      stored := l.stored ++ [b.clock.2.core.data.read b.core.dp]
      retired := l.retired + 1 }
  | _ => { l with retired := l.retired + 1 }

/-- Enters a move on the board `b`. -/
def note (l : Ledger) (b : Board) : Move → Ledger
  | .clock => if b.clock.1 then l.noteRetired b else l
  | .terminal (.inject bytes) => { l with queued := l.queued ++ bytes }
  | .terminal .drain => { l with collected := l.collected ++ b.terminal.received.toList }
  | _ => l

/-- Enters a row of moves that begins on the board `b`. -/
def through (l : Ledger) (b : Board) : List Move → Ledger
  | [] => l
  | m :: rest => (l.note b m).through (m.apply b) rest

/-- A row of moves behind another is entered where the first has ended. -/
theorem through_append (l : Ledger) (b : Board) (first second : List Move) :
    l.through b (first ++ second) = (l.through b first).through (b.after first) second := by
  induction first generalizing l b with
  | nil => rfl
  | cons m rest ih => exact ih (l.note b m) (m.apply b)

/-- **What every move keeps, a row of moves keeps.** -/
theorem through_induction {I : Board → Ledger → Prop} {P : Move → Prop}
    (h_note : ∀ b l m, P m → I b l → I (m.apply b) (l.note b m)) {l : Ledger} {b : Board}
    {moves : List Move} (h_moves : ∀ m ∈ moves, P m) (h : I b l) :
    I (b.after moves) (l.through b moves) := by
  induction moves generalizing l b with
  | nil => exact h
  | cons m rest ih =>
    exact ih (fun x hx => h_moves x (List.mem_cons_of_mem m hx))
      (h_note b l m (h_moves m List.mem_cons_self) h)

/-! ### The entries of a clock -/

section Clock

variable (l : Ledger) {b : Board}

/-- A clock without an instruction is not entered. -/
theorem note_clock_of_not_retired (h : b.clock.1 = false) : l.note b .clock = l := by
  rw [note, h]
  rfl

/-- A `put` sends the cell, which a listener hears and an echo queues. -/
theorem note_clock_put (h : b.clock.1 = true) (h_op : b.core.opcode = .plain .put) :
    l.note b .clock =
      { l with
        sent := l.sent ++ [b.core.cell]
        overheard :=
          if b.terminal.listener = .off then l.overheard else l.overheard ++ [b.core.cell]
        queued := if b.terminal.listener = .echo then l.queued ++ [b.core.cell] else l.queued
        retired := l.retired + 1 } := by
  rw [note, if_pos h, noteRetired, h_op]

/-- A `get` stores the byte that is found in data memory after the clock. -/
theorem note_clock_get (h : b.clock.1 = true) (h_op : b.core.opcode = .plain .get) :
    l.note b .clock =
      { l with
        stored := l.stored ++ [b.clock.2.core.data.read b.core.dp]
        retired := l.retired + 1 } := by
  rw [note, if_pos h, noteRetired, h_op]

/-- Of any other instruction only the count is entered. -/
theorem note_clock_other (h : b.clock.1 = true) (h_put : b.core.opcode ≠ .plain .put)
    (h_get : b.core.opcode ≠ .plain .get) :
    l.note b .clock = { l with retired := l.retired + 1 } := by
  rw [note, if_pos h, noteRetired]
  split
  · next h_op => exact absurd h_op h_put
  · next h_op => exact absurd h_op h_get
  · rfl

/-- What every instruction that retires has in common: without an echo nothing is queued. -/
theorem note_clock_of_retired (h : b.clock.1 = true) (h_listener : b.terminal.listener ≠ .echo) :
    (l.note b .clock).queued = l.queued ∧ (l.note b .clock).collected = l.collected ∧
      (l.note b .clock).retired = l.retired + 1 := by
  rw [note, if_pos h, noteRetired]
  split
  -- only a `put` could have been echoed
  · exact ⟨if_neg h_listener, rfl, rfl⟩
  · exact ⟨rfl, rfl, rfl⟩
  · exact ⟨rfl, rfl, rfl⟩

end Clock

/-! ### What was collected -/

/-- Bytes are collected by a drain, and by nothing else. -/
theorem collected_note (l : Ledger) (b : Board) {m : Move} (h : m ≠ .terminal .drain) :
    (l.note b m).collected = l.collected := by
  cases m with
  | clock =>
    rw [note]
    split
    · rw [noteRetired]
      -- no instruction collects, whatever it is
      split <;> rfl
    · rfl
  | terminal action =>
    cases action with
    | drain => exact absurd rfl h
    | inject | accept | listen | drive | sample => rfl
  | core | link | loaded | started => rfl

/-- A row of moves without a drain collects nothing. -/
theorem collected_through (l : Ledger) (b : Board) {moves : List Move}
    (h : ∀ m ∈ moves, m ≠ .terminal .drain) : (l.through b moves).collected = l.collected :=
  through_induction (I := fun _ l' => l'.collected = l.collected)
    (fun b l' _ h_m h_l => (l'.collected_note b h_m).trans h_l) h rfl

/-- Clocks collect nothing. -/
theorem collected_through_clockMoves (l : Ledger) (b : Board) (count : Nat) :
    (l.through b (clockMoves count)).collected = l.collected := by
  refine l.collected_through b fun m h_m => ?_
  rw [List.eq_of_mem_replicate h_m]
  simp

/-- What was queued is never taken off the books. -/
theorem queued_prefix_note (l : Ledger) (b : Board) (m : Move) :
    l.queued <+: (l.note b m).queued := by
  cases m with
  | clock =>
    rw [note]
    split
    · rw [noteRetired]
      split
      -- a `put` queues its byte again if it is echoed
      · dsimp only
        split
        · exact List.prefix_append _ _
        · exact List.prefix_refl _
      · exact List.prefix_refl _
      · exact List.prefix_refl _
    · exact List.prefix_refl _
  | terminal action =>
    cases action with
    | inject bytes => exact List.prefix_append _ _
    | drain | accept | listen | drive | sample => exact List.prefix_refl _
  | core | link | loaded | started => exact List.prefix_refl _

/-! ### What nothing is entered for -/

/-- **Nothing is entered where every clock is held**, and the terminal stays as it is. -/
theorem through_of_held (l : Ledger) {b : Board} {words : Nat} {moves : List Move}
    (h_moves : ∀ m ∈ moves, m.Internal words) (h : b.EachClock (fun b => b.core.Held) moves) :
    l.through b moves = l ∧ (b.after moves).terminal = b.terminal := by
  induction moves generalizing b with
  | nil => exact ⟨rfl, rfl⟩
  | cons m rest ih =>
    obtain ⟨h_first, h_rest⟩ := eachClock_cons.mp h
    -- the clock is held, so no instruction retires; the other moves are not for the books
    have h_note : l.note b m = l ∧ (m.apply b).terminal = b.terminal := by
      cases h_moves m List.mem_cons_self with
      | clock =>
        have h_held := h_first rfl
        exact ⟨l.note_clock_of_not_retired (clock_fst_of_held h_held),
          terminal_clock_of_held h_held⟩
      | offer | withdraw | setInit | setBoot | loaded | started => exact ⟨rfl, rfl⟩
    obtain ⟨h_through, h_after⟩ := ih (fun x hx => h_moves x (List.mem_cons_of_mem m hx)) h_rest
    rw [through, after_cons, h_note.1]
    exact ⟨h_through, h_after.trans h_note.2⟩

end Ledger

/-- The actions that bring up a program. -/
inductive Action.Prepares : Action → Prop
  | load (image data : Array UInt8) (zeroData : Bool) : Prepares (.load image data zeroData)
  | loadSource (source : String) (data : Array UInt8) (zeroData : Bool) :
      Prepares (.loadSource source data zeroData)
  | boot : Prepares .boot

/-- Loads and boots are made of moves of operations. -/
theorem Action.Prepares.internal {action : Action} (h : action.Prepares) (b : Board) :
    ∀ m ∈ b.moves action, m.Internal b.core.code.size := by
  intro m h_m
  cases h with
  | load image data zeroData => exact internal_of_mem_loadMoves h_m
  | loadSource source data zeroData =>
    rw [moves] at h_m
    split at h_m
    · cases h_m
    · exact internal_of_mem_loadMoves h_m
  | boot => exact internal_of_mem_boot h_m

/-- **All clocks of loads and boots are held**, by the line of load mode or the reset line. -/
theorem Action.Prepares.held {action : Action} (h : action.Prepares) (b : Board) :
    b.EachClock (fun b => b.core.Held) (b.moves action) := by
  cases h with
  | load image data zeroData => exact b.eachClock_loadMoves image data zeroData
  | loadSource source data zeroData =>
    rw [moves]
    split
    · exact eachClock_nil _ b
    · exact b.eachClock_loadMoves _ data zeroData
  | boot =>
    rw [moves, eachClock_cons, eachClock_cons]
    -- the one clock of a boot comes while the reset line is high
    exact ⟨by simp, fun _ => Or.inr rfl, by simp [eachClock_cons, eachClock_nil]⟩

/-- **Loads and boots enter nothing**, and leave the terminal as it is. -/
theorem Ledger.through_moves_of_prepares (l : Ledger) (b : Board) {action : Action}
    (h : action.Prepares) :
    l.through b (b.moves action) = l ∧ (b.perform action).board.terminal = b.terminal := by
  rw [perform_board]
  exact l.through_of_held (h.internal b) (h.held b)

/-- **What is entered as collected is what actions answer with.** -/
theorem Ledger.collected_through_moves (l : Ledger) (b : Board) (action : Action) :
    (l.through b (b.moves action)).collected = l.collected ++ (b.perform action).bytes := by
  cases action with
  | load image data zeroData =>
    rw [(l.through_moves_of_prepares b (.load ..)).1, perform, Outcome.bytes_map _ (by simp),
      List.append_nil]
  | loadSource source data zeroData =>
    rw [(l.through_moves_of_prepares b (.loadSource ..)).1, perform, Outcome.bytes_map _ (by simp),
      List.append_nil]
  | boot =>
    rw [(l.through_moves_of_prepares b .boot).1, perform, Outcome.bytes_map _ (by simp),
      List.append_nil]
  | step =>
    rw [perform, Outcome.bytes_map _ (by simp), List.append_nil]
    exact l.collected_through_clockMoves b _
  | run count =>
    rw [perform, Outcome.bytes_map _ (by simp), List.append_nil]
    exact l.collected_through_clockMoves b _
  | runTo address limit =>
    rw [perform, Outcome.bytes_map _ (by simp), List.append_nil]
    exact l.collected_through_clockMoves b _
  | runUntilOutput wanted limit =>
    rw [perform, runUntilOutput, whenBooted, moves, through_append, clocks]
    split
    -- the clocks enter nothing here, and the drain enters what is answered
    · rw [gather_eq]
      exact congrArg (· ++ _) (l.collected_through_clockMoves b _)
    · exact (List.append_nil _).symm
  | core action =>
    have h_bytes : (b.perform (.core action)).bytes = [] := by
      -- no answer of the core is bytes
      cases action <;> rfl
    rw [h_bytes, List.append_nil]
    rfl
  | link action => exact (List.append_nil _).symm
  | terminal action =>
    cases action with
    | drain => rfl
    | inject | accept | listen | drive | sample => exact (List.append_nil _).symm

/-- The bytes with which the actions of a session answer. -/
def sessionBytes (b : Board) : List Action → List UInt8
  | [] => []
  | action :: rest => (b.perform action).bytes ++ (b.perform action).board.sessionBytes rest

/-- What a session collects is what its actions answer with, in their order. -/
theorem Ledger.collected_through_sessionMoves (l : Ledger) (b : Board) (actions : List Action) :
    (l.through b (b.sessionMoves actions)).collected = l.collected ++ b.sessionBytes actions := by
  induction actions generalizing l b with
  | nil => exact (List.append_nil _).symm
  | cons action rest ih =>
    rw [sessionMoves, through_append, ← perform_board, ih, collected_through_moves, sessionBytes,
      List.append_assoc]

end Board

end TapeProcessor
