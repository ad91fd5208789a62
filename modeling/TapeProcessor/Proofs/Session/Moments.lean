import TapeProcessor.Proofs.Session.Move

/-!
# What holds at every moment of a session

A moment of a session is a front part of its row of moves. This file has the two ways
in which facts about single moves become facts about moments.

* An invariant that all moves of a session keep holds at every moment
  (`Board.invariant_at_moments`). To say which moves those are, `Board.moves_cases`
  lists the moves that operations are made of (`Move.Internal`); the others are the
  actions on the core, the link and the terminal, each of which is a move.
* `Board.EachClock P b moves` says that each clock of a row of moves begins on a board
  with `P`. It is checked move by move (`Board.eachClock_cons`) and part by part
  (`Board.eachClock_append`). In this way `Board.eachClock_loadMoves` has all clocks of
  a load held.
-/

namespace TapeProcessor.Board

variable {b : Board}

/-! ### Invariants -/

/-- **What every move of a row keeps** holds behind the row. -/
theorem invariant_after {I : Board → Prop} {P : Move → Prop}
    (h_apply : ∀ b m, P m → I b → I (m.apply b)) {moves : List Move} (h_moves : ∀ m ∈ moves, P m)
    (h : I b) : I (b.after moves) := by
  induction moves generalizing b with
  | nil => exact h
  | cons m rest ih =>
    exact ih (fun x hx => h_moves x (List.mem_cons_of_mem m hx))
      (h_apply b m (h_moves m List.mem_cons_self) h)

/-- **What every move of a session keeps** holds at every moment of it. Which moves an
action is made of may depend on the invariant. -/
theorem invariant_at_moments {I : Board → Prop} {P : Move → Prop} {Q : Action → Prop}
    (h_apply : ∀ b m, P m → I b → I (m.apply b))
    (h_moves : ∀ b action, Q action → I b → ∀ m ∈ b.moves action, P m)
    {actions : List Action} (h_actions : ∀ action ∈ actions, Q action) (h : I b) :
    ∀ moves, moves <+: b.sessionMoves actions → I (b.after moves) := by
  have h_all : ∀ m ∈ b.sessionMoves actions, P m := by
    induction actions generalizing b with
    | nil => exact fun m h_m => absurd h_m List.not_mem_nil
    | cons action rest ih =>
      have h_first := h_moves b action (h_actions action List.mem_cons_self) h
      -- the invariant holds of the board that the action leaves, on which the next moves depend
      have h_next : I (b.perform action).board := by
        rw [perform_board]
        exact invariant_after h_apply h_first h
      intro m h_m
      rcases List.mem_append.mp h_m with h_m | h_m
      · exact h_first m h_m
      · exact ih (fun x hx => h_actions x (List.mem_cons_of_mem action hx)) h_next m h_m
  intro moves h_front
  exact invariant_after h_apply (fun m h_m => h_all m (h_front.subset h_m)) h

/-! ### The moves of operations -/

/-- The moves that the operations of a board are made of, if code memory has so many
words. -/
inductive Move.Internal (words : Nat) : Move → Prop
  | clock : Internal words .clock
  | offer (bank : Bank) (address bits : Int) : Internal words (.core (.offer bank address bits))
  | withdraw (bank : Bank) : Internal words (.core (.withdraw bank))
  | setInit (flag : Bool) : Internal words (.core (.setInit flag))
  | setBoot (flag : Bool) : Internal words (.core (.setBoot flag))
  | loaded (size : Nat) (h : size ≤ words) : Internal words (.loaded size)
  | started : Internal words .started

section Internal

variable {words : Nat} {m : Move}

theorem internal_of_mem_clockMoves {count : Nat} (h : m ∈ clockMoves count) : m.Internal words := by
  rw [List.eq_of_mem_replicate h]
  exact .clock

theorem internal_of_mem_feedMoves {bank : Bank} {address : Nat} {row : List UInt8}
    (h : m ∈ feedMoves bank address row) : m.Internal words := by
  induction row generalizing address with
  | nil => cases h
  | cons word rest ih =>
    rw [feedMoves, List.mem_cons, List.mem_cons] at h
    rcases h with rfl | rfl | h
    · exact .offer bank address word.toNat
    · exact .clock
    · exact ih h

/-- A load is made of moves of operations, and it notes no image that does not fit. -/
theorem internal_of_mem_loadMoves {image data : Array UInt8} {zeroData : Bool}
    (h : m ∈ b.loadMoves image data zeroData) : m.Internal b.core.code.size := by
  rw [loadMoves] at h
  split at h
  · cases h
  next h_size =>
  split at h
  · cases h
  rw [fillMoves] at h
  -- the feeds, and the moves in front of, between and behind them
  simp only [List.mem_append, List.mem_cons, List.not_mem_nil, or_false] at h
  rcases h with (rfl | rfl) | h | rfl | h | rfl | rfl | rfl
  · exact .setInit true
  · exact .withdraw .code
  · exact internal_of_mem_feedMoves h
  · exact .withdraw .data
  · exact internal_of_mem_feedMoves h
  · exact .withdraw .code
  · exact .setInit false
  · exact .loaded image.size (Nat.not_lt.mp h_size)

/-- A boot is made of the reset line and one clock. -/
theorem internal_of_mem_boot (h : m ∈ b.moves .boot) : m.Internal words := by
  simp only [moves, List.mem_cons, List.not_mem_nil, or_false] at h
  rcases h with rfl | rfl | rfl | rfl
  · exact .setBoot true
  · exact .clock
  · exact .setBoot false
  · exact .started

end Internal

/-- **The moves of an action** are those of an operation, or the action itself; a run
until there is output collects it behind its clocks. -/
theorem moves_cases {action : Action} {m : Move} (h : m ∈ b.moves action) :
    m.Internal b.core.code.size ∨ (∃ a, action = .core a ∧ m = .core a) ∨
      (∃ a, action = .link a ∧ m = .link a) ∨
      ∃ a, (action = .terminal a ∨ a = .drain) ∧ m = .terminal a := by
  cases action with
  | load image data zeroData => exact Or.inl (internal_of_mem_loadMoves h)
  | loadSource source data zeroData =>
    rw [moves] at h
    split at h
    · cases h
    · exact Or.inl (internal_of_mem_loadMoves h)
  | boot => exact Or.inl (internal_of_mem_boot h)
  | step | run | runTo => exact Or.inl (internal_of_mem_clockMoves h)
  | runUntilOutput wanted limit =>
    rcases List.mem_append.mp h with h | h
    · exact Or.inl (internal_of_mem_clockMoves h)
    · split at h
      · exact Or.inr (Or.inr (Or.inr ⟨.drain, Or.inr rfl, List.mem_singleton.mp h⟩))
      · cases h
  | core a => exact Or.inr (Or.inl ⟨a, rfl, List.mem_singleton.mp h⟩)
  | link a => exact Or.inr (Or.inr (Or.inl ⟨a, rfl, List.mem_singleton.mp h⟩))
  | terminal a => exact Or.inr (Or.inr (Or.inr ⟨a, Or.inl rfl, List.mem_singleton.mp h⟩))

/-! ### The clocks of a row of moves -/

/-- Each clock of a row of moves begins on a board with the property `P`. -/
def EachClock (P : Board → Prop) (b : Board) (moves : List Move) : Prop :=
  ∀ front back, moves = front ++ .clock :: back → P (b.after front)

section EachClock

variable {P Q : Board → Prop} {first second rest : List Move} {m : Move}

theorem eachClock_nil (P : Board → Prop) (b : Board) : b.EachClock P [] := by
  intro front back h
  simp at h

/-- The first move, if it is a clock, and the clocks of the others. -/
theorem eachClock_cons :
    b.EachClock P (m :: rest) ↔ (m = .clock → P b) ∧ (m.apply b).EachClock P rest := by
  constructor
  · intro h
    refine ⟨?_, fun front back h_rest => ?_⟩
    · rintro rfl
      exact h [] rest rfl
    · exact h (m :: front) back (congrArg (m :: ·) h_rest)
  · rintro ⟨h_first, h_rest⟩ front back h_split
    -- a clock of the whole row is its first move or one of the others
    cases front with
    | nil =>
      obtain ⟨rfl, -⟩ := List.cons.inj h_split
      exact h_first rfl
    | cons x front =>
      obtain ⟨rfl, h_tail⟩ := List.cons.inj h_split
      exact h_rest front back h_tail

theorem eachClock_append :
    b.EachClock P (first ++ second) ↔
      b.EachClock P first ∧ (b.after first).EachClock P second := by
  induction first generalizing b with
  | nil => simp [eachClock_nil]
  | cons m rest ih => rw [List.cons_append, eachClock_cons, ih, eachClock_cons, and_assoc]; rfl

/-- The clocks of a run. -/
theorem eachClock_clockMoves {count : Nat} :
    b.EachClock P (clockMoves count) ↔ ∀ used < count, P (b.after (clockMoves used)) := by
  induction count generalizing b with
  | zero => simp [clockMoves, eachClock_nil]
  | succ count ih =>
    change b.EachClock P (.clock :: clockMoves count) ↔ _
    rw [eachClock_cons, ih, Nat.forall_lt_succ_left]
    exact and_congr_left' ⟨fun h => h rfl, fun h _ => h⟩

theorem EachClock.imp (h : b.EachClock P first) (h_imp : ∀ b, P b → Q b) :
    b.EachClock Q first :=
  fun front back h_split => h_imp _ (h front back h_split)

end EachClock

/-! ### The clocks of a load -/

/-- In load mode every clock of a feed is held. -/
theorem eachClock_feedMoves (h : b.core.init = true) (bank : Bank) (address : Nat)
    (words : List UInt8) :
    b.EachClock (fun b => b.core.Held) (feedMoves bank address words) ∧
      (b.after (feedMoves bank address words)).core.init = true := by
  induction words generalizing b address with
  | nil => exact ⟨eachClock_nil _ b, h⟩
  | cons word rest ih =>
    have h_offered : (b.offering bank address word).core.init = true := by
      cases bank <;> exact h
    have h_next : (b.offering bank address word).clock.2.core.init = true := h_offered
    obtain ⟨h_rest, h_last⟩ := ih h_next (address + 1)
    refine ⟨?_, h_last⟩
    rw [feedMoves, eachClock_cons, eachClock_cons]
    exact ⟨by simp, fun _ => Or.inl h_offered, h_rest⟩

/-- In a load the line of load mode is high on every clock. -/
theorem eachClock_fillMoves (b : Board) (image : Array UInt8) (bytes : List UInt8) :
    b.EachClock (fun b => b.core.Held) (fillMoves image bytes) := by
  have h_opened : b.openForLoad.core.init = true := rfl
  obtain ⟨h_first, h_init⟩ := eachClock_feedMoves h_opened .data 0 bytes
  have h_filled : (b.openForLoad.after (feedMoves .data 0 bytes)).withdrawData.core.init = true :=
    h_init
  obtain ⟨h_second, -⟩ := eachClock_feedMoves h_filled .code 0 image.toList
  -- the moves around the two feeds are no clocks
  rw [fillMoves, eachClock_append, eachClock_append]
  refine ⟨by simp [eachClock_cons, eachClock_nil], h_first, ?_⟩
  rw [eachClock_cons, eachClock_append]
  exact ⟨by simp, h_second, by simp [eachClock_cons, eachClock_nil]⟩

/-- Every clock of a load is held, and one that is refused has none. -/
theorem eachClock_loadMoves (b : Board) (image data : Array UInt8) (zeroData : Bool) :
    b.EachClock (fun b => b.core.Held) (b.loadMoves image data zeroData) := by
  rw [loadMoves]
  split
  · exact eachClock_nil _ b
  · split
    · exact eachClock_nil _ b
    · exact b.eachClock_fillMoves image _

end TapeProcessor.Board
