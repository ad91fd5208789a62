import TapeProcessor.Proofs.Board.Refusals
import TapeProcessor.Proofs.Core.Access
import TapeProcessor.Proofs.Session.Moments
import TapeProcessor.Proofs.Session.Timing

/-!
# What the operations of a board keep

The operations of the board and of its host, with nothing done to the core or the link
by hand, are the regular ones (`Action.Regular`). A load among them is refused and does
nothing, or it fills the memories (`Action.Loads.moves_cases`). This one row of moves
raises the line of load mode, and all other moves are mild (`Move.Mild`): they keep
load mode off, and with it code memory and the buses (`Board.Keeps`).

Between two regular operations the board is idle (`Board.Idle`), with both control
lines low and nothing offered on a bus. Inside a load or a boot one of the lines is
high, so none of their clocks runs an instruction (`Action.Prepares.eachClock`), and
the count of stalls stays as it is.
-/

namespace TapeProcessor.Board

variable {b : Board}

/-! ### Regular operations -/

/-- The operations of the board, and what the host does at the terminal. -/
inductive Action.Regular : Action → Prop
  | prepares {action : Action} (h : action.Prepares) : Regular action
  | scheduled {action : Action} (h : action.Scheduled) : Regular action
  | listen (listener : Listener) : Regular (.terminal (.listen listener))

/-- The operations that load a program. -/
inductive Action.Loads : Action → Prop
  | load (image data : Array UInt8) (zeroData : Bool) : Loads (.load image data zeroData)
  | loadSource (source : String) (data : Array UInt8) (zeroData : Bool) :
      Loads (.loadSource source data zeroData)

/-- On the board `b` the action is a load, and it succeeds. -/
def LoadedBy (b : Board) (action : Action) : Prop :=
  action.Loads ∧ ∃ reply, (b.perform action).answer = .ok reply

/-- The next clock of the board runs an instruction. -/
def Executes (b : Board) : Prop := b.drivenCore.Executes

instance (b : Board) : Decidable b.Executes := inferInstanceAs (Decidable b.drivenCore.Executes)

/-- A clock that is not held runs an instruction. -/
theorem executes_iff : b.Executes ↔ ¬ b.core.Held := b.drivenCore.executes_iff

/-- Both control lines are low, and nothing is offered on the buses. -/
structure Idle (b : Board) : Prop where
  init : b.core.init = false
  boot : b.core.boot = false
  codeBus : b.core.codeBus.valid = false
  dataBus : b.core.dataBus.valid = false

/-- On an idle board the next clock runs an instruction. -/
theorem Idle.executes (h : b.Idle) : b.Executes := by
  rw [executes_iff, Core.Held, h.init, h.boot]
  simp

/-! ### Loads that succeed -/

/-- **A load** is refused and does nothing, or it fills the memories. -/
theorem Action.Loads.moves_cases {action : Action} (h : action.Loads) (b : Board) :
    ((∃ refusal, (b.perform action).answer = .error refusal) ∧ b.moves action = []) ∨
      (b.LoadedBy action ∧ ∃ image bytes, b.moves action = fillMoves image bytes) := by
  have h_load : ∀ image data zeroData,
      ((∃ refusal, (b.load image data zeroData).answer = .error refusal) ∧
        b.loadMoves image data zeroData = []) ∨
      ((∃ clocks, (b.load image data zeroData).answer = .ok clocks) ∧
        ∃ image' bytes, b.loadMoves image data zeroData = fillMoves image' bytes) := by
    intro image data zeroData
    rw [load_answer, loadMoves]
    split
    · exact Or.inl ⟨⟨_, rfl⟩, rfl⟩
    · split
      · exact Or.inl ⟨⟨_, rfl⟩, rfl⟩
      · exact Or.inr ⟨⟨_, rfl⟩, image, _, rfl⟩
  cases h with
  | load image data zeroData =>
    rcases h_load image data zeroData with ⟨⟨refusal, h_error⟩, h_none⟩ | ⟨⟨clocks, h_ok⟩, h_fill⟩
    · exact Or.inl ⟨⟨refusal, Outcome.answer_map_eq_error_iff.mpr h_error⟩, h_none⟩
    · refine Or.inr ⟨⟨.load image data zeroData, .count clocks, ?_⟩, h_fill⟩
      rw [perform, Outcome.map, h_ok]
      rfl
  | loadSource source data zeroData =>
    rw [LoadedBy, Board.moves, perform, Board.loadSource]
    cases h_compile : Program.compile source b.core.code.size with
    | error violation => exact Or.inl ⟨⟨_, rfl⟩, rfl⟩
    | ok image =>
      -- a text that is compiled is loaded as its image
      rcases h_load image data zeroData with ⟨⟨refusal, h_error⟩, h_none⟩ | ⟨⟨clocks, h_ok⟩, h_fill⟩
      · exact Or.inl ⟨⟨refusal, Outcome.answer_map_eq_error_iff.mpr h_error⟩, h_none⟩
      · refine Or.inr ⟨⟨.loadSource source data zeroData, .count clocks, ?_⟩, h_fill⟩
        dsimp only
        rw [Outcome.map, h_ok]
        rfl

/-- A load that succeeds fills the memories. -/
theorem LoadedBy.exists_fillMoves {action : Action} (h : b.LoadedBy action) :
    ∃ image bytes, b.moves action = fillMoves image bytes := by
  rcases h.1.moves_cases b with ⟨⟨refusal, h_error⟩, -⟩ | ⟨-, h_fill⟩
  · obtain ⟨reply, h_ok⟩ := h.2
    rw [h_error] at h_ok
    cases h_ok
  · exact h_fill

/-- A load that succeeds leaves the board idle, as long as the reset line was low. -/
theorem LoadedBy.idle {action : Action} (h : b.LoadedBy action) (h_boot : b.core.boot = false) :
    (b.perform action).board.Idle := by
  obtain ⟨image, bytes, h_moves⟩ := h.exists_fillMoves
  rw [perform_board, h_moves, after_fillMoves]
  have h_filled := b.filledFrom image.toList bytes
  exact ⟨rfl, h_filled.boot.trans h_boot, rfl, h_filled.feeding.quiet⟩

/-- A load that succeeds asks for a new reset. -/
theorem LoadedBy.booted {action : Action} (h : b.LoadedBy action) :
    (b.perform action).board.booted = false := by
  obtain ⟨image, bytes, h_moves⟩ := h.exists_fillMoves
  rw [perform_board, h_moves, after_fillMoves]
  rfl

/-- **No clock of a load or a boot executes.** -/
theorem Action.Prepares.eachClock {action : Action} (h : action.Prepares) (b : Board) :
    b.EachClock (fun b => ¬ b.Executes) (b.moves action) :=
  (h.held b).imp fun b h_b => by rw [executes_iff, not_not]; exact h_b

/-- **Where every clock is held, nothing stalls.** -/
theorem stalls_of_held {words : Nat} {moves : List Move} (h_moves : ∀ m ∈ moves, m.Internal words)
    (h : b.EachClock (fun b => b.core.Held) moves) :
    (b.after moves).core.stalls = b.core.stalls := by
  induction moves generalizing b with
  | nil => rfl
  | cons m rest ih =>
    obtain ⟨h_first, h_rest⟩ := eachClock_cons.mp h
    rw [after_cons, ih (fun x hx => h_moves x (List.mem_cons_of_mem m hx)) h_rest]
    cases h_moves m List.mem_cons_self with
    | clock =>
      have h_held : b.drivenCore.Held := h_first rfl
      change b.clock.2.core.stalls = b.core.stalls
      -- a clock that is held plans no stall
      rw [core_clock, Core.step_snd, Core.stalls_commit, h_held.plan_eq]
      rfl
    | offer bank | withdraw bank => cases bank <;> rfl
    | setInit | setBoot | loaded | started => rfl

/-- Loads and boots count no stall. -/
theorem Action.Prepares.stalls {action : Action} (h : action.Prepares) (b : Board) :
    (b.perform action).board.core.stalls = b.core.stalls := by
  rw [perform_board]
  exact stalls_of_held (h.internal b) (h.held b)

/-! ### All other moves -/

/-- What a regular operation comes to on the board `b`: a load that succeeds, one that
is refused, a boot, or a number of clocks and then something at the terminal. -/
inductive Action.Course (b : Board) : Action → Prop
  | loaded {action : Action} (h : b.LoadedBy action) : Course b action
  | refused {action : Action} (h : ¬ b.LoadedBy action) (h_boot : action ≠ .boot)
      (h_moves : b.moves action = []) : Course b action
  | boot : Course b .boot
  | run {action : Action} (h : ¬ action.Prepares) (rest : List Move)
      (h_moves : b.moves action = clockMoves (b.clocks action) ++ rest)
      (h_rest : ∀ m ∈ rest, ∃ a, m = .terminal a) : Course b action

/-- A load brings up a program. -/
theorem Action.Loads.prepares {action : Action} (h : action.Loads) : action.Prepares := by
  cases h with
  | load image data zeroData => exact .load image data zeroData
  | loadSource source data zeroData => exact .loadSource source data zeroData

/-- A load succeeds or is refused, and then it does nothing. -/
theorem Action.Loads.course {action : Action} (h : action.Loads) (b : Board) :
    action.Course b := by
  rcases h.moves_cases b with ⟨⟨refusal, h_error⟩, h_none⟩ | ⟨h_loaded, -⟩
  · refine .refused ?_ (by rintro rfl; cases h) h_none
    rintro ⟨-, reply, h_ok⟩
    rw [h_error] at h_ok
    cases h_ok
  · exact .loaded h_loaded

/-- Every regular operation has one of the four courses. -/
theorem Action.Regular.course {action : Action} (h : action.Regular) (b : Board) :
    action.Course b := by
  have h_clocks : ∀ action : Action, ¬ action.Prepares →
      b.moves action = clockMoves (b.clocks action) → action.Course b :=
    fun action h_not h_moves => .run h_not [] (by rw [h_moves, List.append_nil]) (by simp)
  have h_terminal : ∀ a : Terminal.Action, (Action.terminal a).Course b := by
    intro a
    have h_none : b.clocks (.terminal a) = 0 := ite_self 0
    refine .run (by rintro ⟨⟩) [.terminal a] ?_ (by simp)
    rw [h_none]
    rfl
  cases h with
  | prepares h =>
    cases h with
    | load image data zeroData => exact Action.Loads.course (.load image data zeroData) b
    | loadSource source data zeroData =>
      exact Action.Loads.course (.loadSource source data zeroData) b
    | boot => exact .boot
  | scheduled h =>
    cases h with
    | step => exact h_clocks _ (by rintro ⟨⟩) rfl
    | run count => exact h_clocks _ (by rintro ⟨⟩) rfl
    | runTo address limit => exact h_clocks _ (by rintro ⟨⟩) rfl
    | runUntilOutput wanted limit =>
      refine .run (by rintro ⟨⟩) _ rfl fun m h_m => ?_
      -- the bytes are collected behind the clocks
      split at h_m
      · exact ⟨.drain, List.mem_singleton.mp h_m⟩
      · cases h_m
    | inject bytes => exact h_terminal (.inject bytes)
    | accept flag => exact h_terminal (.accept flag)
    | drain => exact h_terminal .drain
  | listen listener => exact h_terminal (.listen listener)

/-- The moves that leave load mode as it is. -/
inductive Move.Mild : Move → Prop
  | clock : Mild .clock
  | terminal (action : Terminal.Action) : Mild (.terminal action)
  | setBoot (flag : Bool) : Mild (.core (.setBoot flag))
  | started : Mild .started

/-- **An operation that does not load is mild.** -/
theorem Action.Course.mild {action : Action} (h : action.Course b) (h_load : ¬ b.LoadedBy action) :
    ∀ m ∈ b.moves action, m.Mild := by
  intro m h_m
  cases h with
  | loaded h => exact absurd h h_load
  | refused _ _ h_moves =>
    rw [h_moves] at h_m
    cases h_m
  | boot =>
    simp only [moves, List.mem_cons, List.not_mem_nil, or_false] at h_m
    rcases h_m with rfl | rfl | rfl | rfl
    · exact .setBoot true
    · exact .clock
    · exact .setBoot false
    · exact .started
  | run _ rest h_moves h_rest =>
    rw [h_moves] at h_m
    rcases List.mem_append.mp h_m with h_m | h_m
    · rw [List.eq_of_mem_replicate h_m]
      exact .clock
    · obtain ⟨a, rfl⟩ := h_rest m h_m
      exact .terminal a

/-- What mild moves keep while load mode is off. -/
structure Keeps (b b' : Board) : Prop where
  init : b'.core.init = false
  code : b'.core.code = b.core.code
  codeBus : b'.core.codeBus = b.core.codeBus
  dataBus : b'.core.dataBus = b.core.dataBus

/-- A mild move keeps what the others have kept. -/
theorem Keeps.apply {b b' : Board} (h : b.Keeps b') {m : Move} (h_m : m.Mild) :
    b.Keeps (m.apply b') := by
  obtain ⟨h_init, h_code, h_codeBus, h_dataBus⟩ := h
  cases h_m with
  | clock =>
    -- with load mode off a clock writes to data memory only
    have h_same := Core.code_step_of_not_init (c := b'.drivenCore) h_init
    exact ⟨h_init, h_same.trans h_code, h_codeBus, h_dataBus⟩
  | terminal | setBoot | started => exact ⟨h_init, h_code, h_codeBus, h_dataBus⟩

/-- At every moment of an operation that does not load, load mode is off, and code memory
and the buses are as they were. -/
theorem Action.Course.keeps {action : Action} (h : action.Course b) (h_load : ¬ b.LoadedBy action)
    (h_init : b.core.init = false) {front : List Move} (h_front : front <+: b.moves action) :
    b.Keeps (b.after front) :=
  invariant_after (I := fun b' => b.Keeps b') (fun _ _ h_m h_b => h_b.apply h_m)
    (fun m h_m => h.mild h_load m (h_front.subset h_m)) ⟨h_init, rfl, rfl, rfl⟩

/-- **Code memory changes only inside a load that succeeds**, at any moment. -/
theorem Action.Course.loadedBy_of_code_ne {action : Action} (h : action.Course b) (h_idle : b.Idle)
    {front : List Move} (h_front : front <+: b.moves action)
    (h_ne : (b.after front).core.code ≠ b.core.code) : b.LoadedBy action := by
  by_contra h_load
  exact h_ne (h.keeps h_load h_idle.init h_front).code

/-- Clocks, and what is done at the terminal, leave the reset line alone. -/
theorem reset_after (count : Nat) {rest : List Move} (h_rest : ∀ m ∈ rest, ∃ a, m = .terminal a) :
    (b.after (clockMoves count ++ rest)).core.boot = b.core.boot ∧
      (b.after (clockMoves count ++ rest)).booted = b.booted := by
  refine invariant_after (P := fun m => m = .clock ∨ ∃ a, m = .terminal a)
    (I := fun b' => b'.core.boot = b.core.boot ∧ b'.booted = b.booted) ?_ (fun m h_m => ?_)
    ⟨rfl, rfl⟩
  · rintro b' m (rfl | ⟨a, rfl⟩) h_b
    · exact h_b
    · exact h_b
  · exact (List.mem_append.mp h_m).imp List.eq_of_mem_replicate (h_rest m)

/-! ### Between two operations -/

theorem new_idle (g : Geometry) : (new g).Idle := ⟨rfl, rfl, rfl, rfl⟩

/-- **A regular operation leaves an idle board idle.** -/
theorem Action.Course.idle {action : Action} (h : action.Course b) (h_idle : b.Idle) :
    (b.perform action).board.Idle := by
  by_cases h_load : b.LoadedBy action
  · exact h_load.idle h_idle.boot
  have h_keeps := h.keeps h_load h_idle.init (List.prefix_refl _)
  rw [← perform_board] at h_keeps
  have h_boot : (b.perform action).board.core.boot = false := by
    cases h with
    | loaded h => exact absurd h h_load
    | refused _ _ h_moves =>
      rw [perform_board, h_moves]
      exact h_idle.boot
    | boot => rfl
    | run _ rest h_moves h_rest =>
      rw [perform_board, h_moves]
      exact (reset_after _ h_rest).1.trans h_idle.boot
  -- nothing was offered on the buses before, and they are as they were
  exact ⟨h_keeps.init, h_boot, h_keeps.codeBus ▸ h_idle.codeBus, h_keeps.dataBus ▸ h_idle.dataBus⟩

/-- **A session of regular operations leaves an idle board idle.** -/
theorem Idle.session (h : b.Idle) {actions : List Action}
    (h_actions : ∀ action ∈ actions, action.Regular) : (b.session actions).Idle := by
  induction actions generalizing b with
  | nil => exact h
  | cons action rest ih =>
    exact ih (((h_actions action List.mem_cons_self).course b).idle h)
      fun x hx => h_actions x (List.mem_cons_of_mem action hx)

/-- **Whether the core counts as reset** after a regular operation. A boot resets it, and
only a load that succeeds undoes that. -/
theorem Action.Course.booted_iff {action : Action} (h : action.Course b) :
    (b.perform action).board.booted = true ↔
      action = .boot ∨ (b.booted = true ∧ ¬ b.LoadedBy action) := by
  cases h with
  | loaded h =>
    have h_boot : action ≠ .boot := by
      rintro rfl
      -- a boot is no load
      cases h.1
    simp [h_boot, h, h.booted]
  | refused h h_boot h_moves =>
    rw [perform_board, h_moves]
    simp [h_boot, h]
  | boot => exact ⟨fun _ => Or.inl rfl, fun _ => rfl⟩
  | run h rest h_moves h_rest =>
    have h_boot : action ≠ .boot := by
      rintro rfl
      exact h .boot
    have h_load : ¬ b.LoadedBy action := fun h_load => h h_load.1.prepares
    rw [perform_board, h_moves, (reset_after _ h_rest).2]
    simp [h_boot, h_load]

end TapeProcessor.Board
