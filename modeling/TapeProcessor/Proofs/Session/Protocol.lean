import TapeProcessor.Proofs.Session.Operations

/-!
# The protocol of loading, resetting and running

`Board.protocol` is about all sessions of regular operations on a new board, in which
any operation may fail.

* Between two operations the board is idle.
* A run is permitted exactly if the core was reset since the last load that succeeded
  (`Board.ResetSinceLoad`).
* Loads and boots run no instruction, and leave the count of stalls and the terminal
  alone.
* Code memory changes only inside a load that succeeds.
* The first instruction that runs after such a load is the one at address zero, on the
  memories as the load left them.

The last item is an induction on the operations behind the load. Its invariant is
`Board.Fresh`: the memories are those of the load, and if the core was reset, both
pointers are zero. An operation keeps it as long as none of its clocks executes
(`Board.Fresh.perform`). This is enough, because on an idle board the very first clock
of a run executes, so that there is no run with clocks before the one that is meant
(`Board.Fresh.first`).
-/

namespace TapeProcessor.Board

variable {b loaded : Board} {action : Action} {actions : List Action}

/-! ### Resets since a load -/

/-- In a session on `b`, a boot came after the last load that succeeded, or there was no
such load. -/
def ResetSinceLoad (b : Board) (actions : List Action) : Prop :=
  ∃ front back, actions = front ++ .boot :: back ∧
    ∀ middle action rest, back = middle ++ action :: rest →
      ¬ (b.session (front ++ .boot :: middle)).LoadedBy action

theorem session_concat (b : Board) (actions : List Action) (action : Action) :
    b.session (actions ++ [action]) = ((b.session actions).perform action).board := by
  rw [session, session, List.foldl_append]
  rfl

theorem not_resetSinceLoad_nil (b : Board) : ¬ b.ResetSinceLoad [] := by
  rintro ⟨front, back, h_split, -⟩
  simp at h_split

/-- **One more operation.** A boot resets, and only a load that succeeds undoes it. -/
theorem resetSinceLoad_concat :
    b.ResetSinceLoad (actions ++ [action]) ↔
      action = .boot ∨ (b.ResetSinceLoad actions ∧ ¬ (b.session actions).LoadedBy action) := by
  constructor
  · rintro ⟨front, back, h_split, h_none⟩
    rcases List.eq_nil_or_concat back with rfl | ⟨back, last, rfl⟩
    · -- the boot is the last operation
      exact Or.inl (List.append_inj' h_split rfl |>.2 |> List.cons.inj).1
    · obtain ⟨rfl, h_last⟩ : actions = front ++ .boot :: back ∧ [action] = [last] :=
        List.append_inj' (by simpa using h_split) rfl
      obtain ⟨rfl, -⟩ := List.cons.inj h_last
      refine Or.inr ⟨⟨front, back, rfl, fun middle a rest h_back => ?_⟩, ?_⟩
      · exact h_none middle a (rest ++ [action]) (by simp [h_back])
      · exact h_none back action [] (by simp)
  · rintro (rfl | ⟨⟨front, back, rfl, h_none⟩, h_load⟩)
    · exact ⟨actions, [], rfl, fun middle a rest h_back => by simp at h_back⟩
    · refine ⟨front, back ++ [action], by simp, fun middle a rest h_back => ?_⟩
      -- the operation is the last one, or one that came before
      rcases List.eq_nil_or_concat rest with rfl | ⟨rest, last, rfl⟩
      · obtain ⟨rfl, h_last⟩ := List.append_inj' h_back rfl
        obtain ⟨rfl, -⟩ := List.cons.inj h_last
        exact h_load
      · obtain ⟨rfl, -⟩ : back = middle ++ a :: rest ∧ [action] = [last] :=
          List.append_inj' (by simpa using h_back) rfl
        exact h_none middle a rest rfl

/-- **The board knows whether it was reset** since the last load that succeeded. -/
theorem booted_session_iff (h_new : b.booted = false)
    (h_actions : ∀ action ∈ actions, action.Regular) :
    (b.session actions).booted = true ↔ b.ResetSinceLoad actions := by
  induction actions using List.reverseRecOn with
  | nil =>
    change b.booted = true ↔ _
    simp [h_new, not_resetSinceLoad_nil]
  | append_singleton actions action ih =>
    have h_regular : action.Regular := h_actions action (by simp)
    have h_before := ih fun x hx => h_actions x (List.mem_append_left _ hx)
    -- the board and the session change at the same operations
    rw [session_concat, (h_regular.course _).booted_iff, resetSinceLoad_concat, h_before]

/-- **Runs are permitted on a board that was reset.** -/
theorem Action.Runs.answers_iff (h : action.Runs) (b : Board) :
    (∃ reply, (b.perform action).answer = .ok reply) ↔ b.booted = true := by
  constructor
  · rintro ⟨reply, h_ok⟩
    by_contra h_booted
    rw [Bool.not_eq_true] at h_booted
    rw [h.perform_of_not_booted h_booted] at h_ok
    cases h_ok
  · exact h.exists_answer

/-! ### The first instruction after a load -/

/-- No instruction ran on the board `b` since the load that left `loaded`. -/
structure Fresh (loaded b : Board) : Prop where
  idle : b.Idle
  code : b.core.code = loaded.core.code
  data : b.core.data = loaded.core.data
  reset : b.booted = true → b.core.ip = 0 ∧ b.core.dp = 0

namespace Fresh

/-- **An operation none of whose clocks executes** leaves the memories as they are, and
if it resets the core, the pointers are zero. -/
theorem perform (h : Fresh loaded b) (h_course : action.Course b) (h_load : ¬ b.LoadedBy action)
    (h_held : b.EachClock (fun b => ¬ b.Executes) (b.moves action)) :
    Fresh loaded (b.perform action).board := by
  have h_idle := h_course.idle h.idle
  cases h_course with
  | loaded h_loaded => exact absurd h_loaded h_load
  | refused _ _ h_moves =>
    rw [perform_board, h_moves]
    exact h
  | boot =>
    obtain ⟨h_code, h_data, h_ip, h_dp, -⟩ := boot_spec h.idle.init
    exact ⟨h_idle, h_code.trans h.code, h_data.trans h.data, fun _ => ⟨h_ip, h_dp⟩⟩
  | run _ rest h_moves h_rest =>
    -- on an idle board the very first clock would execute
    have h_none : b.clocks action = 0 := by
      by_contra h_some
      obtain ⟨count, h_count⟩ := Nat.exists_eq_succ_of_ne_zero h_some
      rw [h_moves, h_count] at h_held
      exact h_held [] _ rfl h.idle.executes
    rw [h_none] at h_moves
    rw [perform_board, h_moves]
    refine invariant_after (I := Fresh loaded) (P := fun m => ∃ a, m = .terminal a) ?_ h_rest h
    rintro b' m ⟨a, rfl⟩ ⟨⟨h_init, h_boot, h_codeBus, h_dataBus⟩, h_code, h_data, h_reset⟩
    exact ⟨⟨h_init, h_boot, h_codeBus, h_dataBus⟩, h_code, h_data, h_reset⟩

/-- **The first clock that executes** is the first clock of a run, on a core that was
reset. -/
theorem first_of_course (h : Fresh loaded b) (h_course : action.Course b) {front back : List Move}
    (h_split : b.moves action = front ++ .clock :: back)
    (h_held : b.EachClock (fun b => ¬ b.Executes) front) (h_exec : (b.after front).Executes) :
    front = [] ∧ b.booted = true := by
  have h_prepares : ¬ action.Prepares := fun h_prepares =>
    h_prepares.eachClock b front back h_split h_exec
  cases h_course with
  | loaded h_loaded => exact absurd h_loaded.1.prepares h_prepares
  | refused _ _ h_moves =>
    rw [h_moves] at h_split
    simp at h_split
  | boot => exact absurd .boot h_prepares
  | run _ rest h_moves h_rest =>
    rw [h_moves] at h_split
    cases h_count : b.clocks action with
    | zero =>
      -- without clocks there is only the terminal
      rw [h_count] at h_split
      replace h_split : rest = front ++ .clock :: back := h_split
      obtain ⟨a, h_clock⟩ := h_rest .clock (by simp [h_split])
      cases h_clock
    | succ count =>
      have h_booted : b.booted = true := by
        by_contra h_booted
        have h_none : b.clocks action = 0 := if_neg h_booted
        rw [h_none] at h_count
        cases h_count
      refine ⟨?_, h_booted⟩
      rw [h_count] at h_split
      cases front with
      | nil => rfl
      | cons m front =>
        obtain ⟨rfl, -⟩ := List.cons.inj h_split
        exact absurd h.idle.executes (h_held [] front rfl)

/-- **The first instruction** of a session, up to which no other load succeeds, is the
one at address zero, and the memories are those of the load. -/
theorem first (h : Fresh loaded b) {rest : List Action} (h_rest : ∀ action ∈ rest, action.Regular)
    {front back : List Move} (h_split : b.sessionMoves rest = front ++ .clock :: back)
    (h_last : ∀ words, .loaded words ∉ front)
    (h_held : b.EachClock (fun b => ¬ b.Executes) front) (h_exec : (b.after front).Executes) :
    (b.after front).core.ip = 0 ∧ (b.after front).core.dp = 0 ∧
      (b.after front).core.code = loaded.core.code ∧
      (b.after front).core.data = loaded.core.data := by
  induction rest generalizing b front with
  | nil => simp [sessionMoves] at h_split
  | cons action rest ih =>
    have h_course := (h_rest action List.mem_cons_self).course b
    -- the clock comes behind the first operation
    have h_behind : ∀ last, front = b.moves action ++ last →
        (b.perform action).board.sessionMoves rest = last ++ .clock :: back →
        (b.after front).core.ip = 0 ∧ (b.after front).core.dp = 0 ∧
          (b.after front).core.code = loaded.core.code ∧
          (b.after front).core.data = loaded.core.data := by
      rintro last rfl h_later
      have h_load : ¬ b.LoadedBy action := by
        intro h_load
        obtain ⟨image, bytes, h_moves⟩ := h_load.exists_fillMoves
        refine h_last image.size (List.mem_append_left _ ?_)
        simp [h_moves, fillMoves]
      obtain ⟨h_first, h_second⟩ := eachClock_append.mp h_held
      rw [after_append, ← perform_board] at h_exec ⊢
      rw [← perform_board] at h_second
      exact ih (h.perform h_course h_load h_first)
        (fun x hx => h_rest x (List.mem_cons_of_mem action hx)) h_later
        (fun words h_mem => h_last words (List.mem_append_right _ h_mem)) h_second h_exec
    rw [sessionMoves] at h_split
    rcases List.append_eq_append_iff.mp h_split with
      ⟨last, h_front, h_later⟩ | ⟨last, h_moves, h_later⟩
    · exact h_behind last h_front h_later
    · cases last with
      | nil => exact h_behind [] (by simpa using h_moves.symm) h_later.symm
      | cons m last =>
        obtain ⟨rfl, -⟩ := List.cons.inj h_later
        -- the clock is one of the first operation, which is a run on a board that was reset
        obtain ⟨rfl, h_booted⟩ := h.first_of_course h_course h_moves h_held h_exec
        obtain ⟨h_ip, h_dp⟩ := h.reset h_booted
        exact ⟨h_ip, h_dp, h.code, h.data⟩

end Fresh

/-- A load that succeeds leaves a board on which no instruction ran since, and which asks for a
reset. -/
theorem LoadedBy.fresh (h : b.LoadedBy action) (h_idle : b.Idle) :
    Fresh (b.perform action).board (b.perform action).board :=
  ⟨h.idle h_idle.boot, rfl, rfl, fun h_booted => absurd h_booted (by simp [h.booted])⟩

/-! ### The protocol -/

/-- **The protocol of a board.** A new board is given any session of regular operations,
any of which may be refused. Then the board is idle. A run is permitted exactly if a
boot came after the last load that succeeded. No clock of a load or a boot executes,
and these leave the count of stalls and the terminal alone. At no moment of a regular
operation is code memory changed, if it is not a load that succeeds. And if a load does
succeed, then the first clock that executes in what follows, before another load
succeeds, finds both pointers at zero and the memories as that load left them. -/
theorem protocol (g : Geometry) (h_actions : ∀ action ∈ actions, action.Regular) :
    let b := (new g).session actions
    b.Idle ∧
    (∀ run : Action, run.Runs →
      ((∃ reply, (b.perform run).answer = .ok reply) ↔ (new g).ResetSinceLoad actions)) ∧
    (∀ action : Action, action.Prepares →
      b.EachClock (fun b => ¬ b.Executes) (b.moves action) ∧
        (b.perform action).board.core.stalls = b.core.stalls ∧
        (b.perform action).board.terminal = b.terminal) ∧
    (∀ action : Action, action.Regular → ∀ front, front <+: b.moves action →
      (b.after front).core.code ≠ b.core.code → b.LoadedBy action) ∧
    ∀ load : Action, b.LoadedBy load →
      let loaded := (b.perform load).board
      ∀ rest : List Action, (∀ action ∈ rest, action.Regular) →
        ∀ front back, loaded.sessionMoves rest = front ++ .clock :: back →
          (∀ words, .loaded words ∉ front) →
          loaded.EachClock (fun b => ¬ b.Executes) front → (loaded.after front).Executes →
          (loaded.after front).core.ip = 0 ∧ (loaded.after front).core.dp = 0 ∧
            (loaded.after front).core.code = loaded.core.code ∧
            (loaded.after front).core.data = loaded.core.data := by
  intro b
  have h_idle : b.Idle := (new_idle g).session h_actions
  refine ⟨h_idle, fun run h_run => ?_, fun action h_prepares => ?_,
    fun action h_regular front => ?_, ?_⟩
  · exact (h_run.answers_iff b).trans (booted_session_iff rfl h_actions)
  · exact ⟨h_prepares.eachClock b, h_prepares.stalls b,
      (Ledger.empty.through_moves_of_prepares b h_prepares).2⟩
  · exact (h_regular.course b).loadedBy_of_code_ne h_idle
  · intro load h_load loaded rest h_rest front back h_split h_last h_held h_exec
    exact (h_load.fresh h_idle).first h_rest h_split h_last h_held h_exec

/-- A program is loaded, reset and run, and then a text is rejected. -/
def partialSession : List Action :=
  [.loadSource "+." #[] true, .boot, .run 1, .loadSource "[" #[] true]

/-- Behind it the core still counts as reset. After another load it is reset and run
again, and the first instruction is at address zero and finds the new data. -/
theorem protocol_reloaded :
    let g : Geometry := ⟨⟨2, Nat.zero_lt_two⟩, ⟨1, Nat.zero_lt_one⟩⟩
    let b := (new g).session partialSession
    let loaded := (b.perform (.loadSource "." #[7] true)).board
    let first := loaded.session [.terminal (.inject [1]), .boot]
    (∀ action ∈ partialSession, action.Regular) ∧ b.core.ip = 1 ∧
      (∃ reply, (b.perform .step).answer = .ok reply) ∧ first.core.ip = 0 ∧
      first.core.dp = 0 ∧ first.core.data = loaded.core.data ∧ loaded.core.data.read 0 = 7 := by
  intro g b loaded first
  have h_regular : ∀ action ∈ partialSession, action.Regular := by
    simp only [partialSession, List.forall_mem_cons]
    exact ⟨.prepares (.loadSource ..), .prepares .boot, .scheduled (.run 1),
      .prepares (.loadSource ..), by simp⟩
  have h_later : ∀ action : Action, action ∈ [.terminal (.inject [1]), .boot, .step] →
      action.Regular := by
    simp only [List.forall_mem_cons]
    exact ⟨.scheduled (.inject [1]), .prepares .boot, .scheduled .step, by simp⟩
  obtain ⟨-, h_permitted, -, -, h_first⟩ := protocol g h_regular
  have h_reset : (new g).ResetSinceLoad partialSession :=
    (booted_session_iff rfl h_regular).mp (by decide +kernel)
  have h_load : b.LoadedBy (.loadSource "." #[7] true) :=
    ⟨.loadSource .., .count 3, by decide +kernel⟩
  -- the moves in front of the first clock of the step
  obtain ⟨h_ip, h_dp, -, h_data⟩ := h_first (.loadSource "." #[7] true) h_load
    [.terminal (.inject [1]), .boot, .step] h_later
    [.terminal (.inject [1]), .core (.setBoot true), .clock, .core (.setBoot false), .started] []
    rfl (by simp) (eachClock_cons.mpr ⟨by simp, Action.Prepares.boot.eachClock _⟩)
    (by decide +kernel)
  exact ⟨h_regular, by decide +kernel, (h_permitted .step .step).mpr h_reset, h_ip, h_dp, h_data,
    by decide +kernel⟩

end TapeProcessor.Board
