import TapeProcessor.Board.Action
import TapeProcessor.Proofs.Board.Loading

/-!
# Sessions as rows of moves

An operation of a board is made of moves: clocks, and things done between two
clocks, which take no time. `Board.moves b action` is the row of moves of an action
on the board `b`, and `Board.perform_board` says that the action leaves what the
moves leave. So whatever every move keeps holds at every moment of every session,
between any two clocks of a load or a run as well as between two actions
(`Board.after_sessionMoves`).

How many clocks a run takes is read off the run itself (`Board.clocksUntil`): it
goes on until a condition on the board is met or the limit is used up.
-/

namespace TapeProcessor.Board

/-- What operations are made of. -/
inductive Move
  | clock
  | core (action : Core.Action)
  | link (action : Link.Action)
  | terminal (action : Terminal.Action)
  /-- An image of so many words was loaded. -/
  | loaded (words : Nat)
  /-- The core was reset. -/
  | started

/-- The board after a move. -/
def Move.apply (b : Board) : Move → Board
  | .clock => b.clock.2
  | .core action => { b with core := (b.core.perform action).2 }
  | .link action => { b with core := { b.core with link := b.core.link.perform action } }
  | .terminal action =>
    { b with
      core := { b.core with link := (b.terminal.perform b.core.link action).2.2 }
      terminal := (b.terminal.perform b.core.link action).2.1 }
  | .loaded words => { b with imageSize := words, booted := false }
  | .started => { b with booted := true }

/-- The board after a row of moves. -/
def after (b : Board) (moves : List Move) : Board := moves.foldl Move.apply b

@[simp] theorem after_nil (b : Board) : b.after [] = b := rfl

@[simp] theorem after_cons (b : Board) (m : Move) (moves : List Move) :
    b.after (m :: moves) = (m.apply b).after moves := rfl

@[simp] theorem after_append (b : Board) (l m : List Move) :
    b.after (l ++ m) = (b.after l).after m := List.foldl_append

/-! ### The moves of a load -/

/-- The moves of a feed: each word is offered, and then there is a clock. -/
def feedMoves (bank : Bank) (address : Nat) : List UInt8 → List Move
  | [] => []
  | word :: rest =>
    .core (.offer bank address word.toNat) :: .clock :: feedMoves bank (address + 1) rest

/-- The moves of a feed leave what the feed leaves. -/
theorem after_feedMoves (b : Board) (bank : Bank) (address : Nat) (words : List UInt8) :
    b.after (feedMoves bank address words) = feed bank address words b := by
  induction words generalizing b address with
  | nil => rfl
  | cons word rest ih => exact ih (b.offering bank address word).clock.2 (address + 1)

/-- The moves of a load of an image and initial data that fit. -/
def fillMoves (image : Array UInt8) (bytes : List UInt8) : List Move :=
  [.core (.setInit true), .core (.withdraw .code)] ++ (feedMoves .data 0 bytes
    ++ (.core (.withdraw .data) :: (feedMoves .code 0 image.toList
      ++ [.core (.withdraw .code), .core (.setInit false), .loaded image.size])))

/-- The moves of a load. -/
def loadMoves (b : Board) (image data : Array UInt8) (zeroData : Bool) : List Move :=
  if image.size > b.core.code.size then []
  else if data.size > b.core.data.size then []
  else fillMoves image (initialData b.core.data.size data zeroData)

/-- The moves of a load that fits leave filled memories. -/
theorem after_fillMoves (b : Board) (image : Array UInt8) (bytes : List UInt8) :
    b.after (fillMoves image bytes)
      = (feed .code 0 image.toList (feed .data 0 bytes b.openForLoad).withdrawData
        ).closeAfterLoad image.size := by
  -- the data memory is fed first, then the code memory
  rw [fillMoves, after_append, after_append, after_feedMoves, after_cons, after_append,
    after_feedMoves]
  rfl

/-- A load leaves what its moves leave, if it is refused as well. -/
theorem after_loadMoves (b : Board) (image data : Array UInt8) (zeroData : Bool) :
    b.after (b.loadMoves image data zeroData) = (b.load image data zeroData).board := by
  rw [loadMoves, load]
  split
  · -- an image that is too large is refused, and no move is made
    rfl
  · split
    · rfl
    · exact b.after_fillMoves image _

/-! ### The moves of a run -/

/-- The number of clocks until a condition is met, if they are not more than a limit. -/
def clocksUntil (stop : Board → Bool) : Nat → Board → Nat
  | 0, _ => 0
  | left + 1, b => if stop b then 0 else clocksUntil stop left b.clock.2 + 1

theorem clocksUntil_of_met {stop : Board → Bool} {b : Board} (h : stop b = true) (left : Nat) :
    clocksUntil stop (left + 1) b = 0 := if_pos h

theorem clocksUntil_of_not_met {stop : Board → Bool} {b : Board} (h : ¬ stop b = true)
    (left : Nat) : clocksUntil stop (left + 1) b = clocksUntil stop left b.clock.2 + 1 := if_neg h

/-- A run of a number of clocks. -/
def clockMoves (count : Nat) : List Move := List.replicate count .clock

theorem after_clockMoves (b : Board) (count : Nat) :
    b.after (clockMoves count) = Clock.after clock count b := by
  induction count generalizing b with
  | zero => rfl
  | succ count ih => exact ih b.clock.2

/-- The search for an address leaves what its clocks leave. -/
theorem seek_snd (target used limit : Nat) (b : Board) :
    (seek target used limit b).2
      = b.after (clockMoves (clocksUntil (fun b => b.core.ip = target) limit b)) := by
  induction limit generalizing used b with
  | zero => rfl
  | succ left ih =>
    rw [seek]
    by_cases h : b.core.ip = target
    · rw [if_pos h, clocksUntil_of_met (decide_eq_true h)]
      rfl
    · rw [if_neg h, clocksUntil_of_not_met (by simpa using h), ih]
      rfl

/-- The search tells the number of its clocks if it is below the limit. -/
theorem seek_fst (target used limit : Nat) (b : Board) :
    (seek target used limit b).1 =
      if clocksUntil (fun b => b.core.ip = target) limit b < limit then
        some (used + clocksUntil (fun b => b.core.ip = target) limit b)
      else none := by
  induction limit generalizing used b with
  | zero => rfl
  | succ left ih =>
    rw [seek]
    by_cases h : b.core.ip = target
    · rw [if_pos h, clocksUntil_of_met (decide_eq_true h), if_pos (Nat.succ_pos left)]
      rfl
    · rw [if_neg h, clocksUntil_of_not_met (by simpa using h), ih]
      simp only [Nat.add_lt_add_iff_right, Nat.add_assoc, Nat.add_comm 1]

/-- The wait for output leaves what its clocks leave. -/
theorem gather_eq (wanted : Int) (limit : Nat) (b : Board) :
    gather wanted limit b = b.after
      (clockMoves (clocksUntil (fun b => wanted ≤ b.terminal.received.size) limit b)) := by
  induction limit generalizing b with
  | zero => rfl
  | succ left ih =>
    rw [gather]
    by_cases h : wanted ≤ b.terminal.received.size
    · -- enough was received, so there is no clock
      rw [if_pos h, clocksUntil_of_met (decide_eq_true h)]
      rfl
    · rw [if_neg h, clocksUntil_of_not_met (by simpa using h), ih]
      rfl

/-! ### The moves of an action -/

/-- The number of clocks for which an action runs instructions. -/
def clocks (b : Board) (action : Action) : Nat :=
  if b.booted then
    match action with
    | .step => 1
    | .run count => count.toNat
    | .runTo address limit =>
      clocksUntil (fun b' => b'.core.ip = b.core.code.wrap address) limit.toNat b
    | .runUntilOutput wanted limit =>
      clocksUntil (fun b' => wanted ≤ b'.terminal.received.size) limit.toNat b
    | _ => 0
  else 0

/-- The moves of an action. -/
def moves (b : Board) : Action → List Move
  | .load image data zeroData => b.loadMoves image data zeroData
  | .loadSource source data zeroData =>
    match Program.compile source b.core.code.size with
    | .error _ => []
    | .ok image => b.loadMoves image data zeroData
  | .boot => [.core (.setBoot true), .clock, .core (.setBoot false), .started]
  | .step => clockMoves (b.clocks .step)
  | .run count => clockMoves (b.clocks (.run count))
  | .runTo address limit => clockMoves (b.clocks (.runTo address limit))
  | .runUntilOutput wanted limit =>
    clockMoves (b.clocks (.runUntilOutput wanted limit))
      ++ if b.booted then [.terminal .drain] else []
  | .core action => [.core action]
  | .link action => [.link action]
  | .terminal action => [.terminal action]

/-- **An action leaves what its moves leave.** -/
theorem perform_board (b : Board) (action : Action) :
    (b.perform action).board = b.after (b.moves action) := by
  cases action with
  | load image data zeroData => exact (b.after_loadMoves image data zeroData).symm
  | loadSource source data zeroData =>
    change (b.loadSource source data zeroData).board = _
    rw [loadSource, moves]
    cases h_compile : Program.compile source b.core.code.size with
    | error violation => rfl
    | ok image => exact (b.after_loadMoves image data zeroData).symm
  | boot => rfl
  | step =>
    change b.step.board = _
    rw [step, whenBooted, moves, clocks]
    split <;> rfl
  | run count =>
    change (b.run count).board = _
    rw [run, whenBooted, moves, clocks]
    split
    · rw [after_clockMoves, Clock.run_eq]
      rfl
    · rfl
  | runTo address limit =>
    change (b.runTo address limit).board = _
    rw [moves, clocks]
    by_cases h_booted : b.booted = true
    · rw [runTo_eq h_booted, if_pos h_booted]
      exact seek_snd _ 0 _ b
    · rw [runTo, whenBooted, if_neg h_booted, if_neg h_booted]
      rfl
  | runUntilOutput wanted limit =>
    change (b.runUntilOutput wanted limit).board = _
    rw [runUntilOutput, whenBooted, moves, clocks]
    split
    · -- the clocks first, and then the bytes are collected
      rw [after_append, ← gather_eq]
      rfl
    · rfl
  | core action => rfl
  | link action => rfl
  | terminal action => rfl

/-! ### Sessions -/

/-- The board after a session, in which a refused action does not end the session. -/
def session (b : Board) (actions : List Action) : Board :=
  actions.foldl (fun b action => (b.perform action).board) b

/-- The moves of a session. -/
def sessionMoves (b : Board) : List Action → List Move
  | [] => []
  | action :: rest => b.moves action ++ (b.perform action).board.sessionMoves rest

/-- **A session leaves what its moves leave.** -/
theorem after_sessionMoves (b : Board) (actions : List Action) :
    b.after (b.sessionMoves actions) = b.session actions := by
  induction actions generalizing b with
  | nil => rfl
  | cons action rest ih =>
    rw [sessionMoves, after_append, ← perform_board, ih]
    rfl

/-- The moves of one action more are made on the board that the session leaves. -/
theorem sessionMoves_concat (b : Board) (actions : List Action) (action : Action) :
    b.sessionMoves (actions ++ [action])
      = b.sessionMoves actions ++ (b.session actions).moves action := by
  induction actions generalizing b with
  | nil => exact List.append_nil _
  | cons first rest ih =>
    rw [List.cons_append, sessionMoves, sessionMoves, ih, List.append_assoc]
    rfl

/-- What holds of the moves of each action holds of those of a session. -/
theorem forall_mem_sessionMoves {P : Move → Prop} {Q : Action → Prop}
    (h_moves : ∀ action, Q action → ∀ b : Board, ∀ m ∈ b.moves action, P m)
    {actions : List Action} (h : ∀ action ∈ actions, Q action) (b : Board) :
    ∀ m ∈ b.sessionMoves actions, P m := by
  induction actions generalizing b with
  | nil => exact fun m h_m => absurd h_m List.not_mem_nil
  | cons action rest ih =>
    intro m h_m
    rcases List.mem_append.mp h_m with h_m | h_m
    · exact h_moves action (h action List.mem_cons_self) b m h_m
    · exact ih (fun x hx => h x (List.mem_cons_of_mem action hx)) _ m h_m

end TapeProcessor.Board
