import TapeProcessor.Board.Action
import TapeProcessor.Proofs.Program.Reading

/-!
# What is refused, and what a refusal leaves behind

An operation of the board that is refused was not begun: it leaves the board exactly
as it found it, down to the counters and the signals of the link
(`Board.refusals_exact`). The same statement says when each operation is refused and
with what.

* `Board.load_answer` checks the image before the data, and nothing else.
* `Board.loadSource_eq_error_iff` says that a text is refused as its compilation is,
  or for its data. The check on the size of the image never applies to the image of a
  text, since no text is compiled to more words than code memory has
  (`Program.of_compile`); so a refused text always has a place to report.
* `Action.Runs.answer_eq_error_iff` covers the four operations that run instructions.
  No run fails once it was begun.

`Action.MayMeet` lists the refusals that each operation may end with; the operations
on the core, the link and the terminal have none.
-/

namespace TapeProcessor

namespace Outcome

variable {Answer Other : Type}

/-- Another form of the answer is refused for the same reason. -/
theorem answer_map_eq_error_iff {f : Answer → Other} {o : Outcome Answer} {refusal : Refusal} :
    (o.map f).answer = .error refusal ↔ o.answer = .error refusal := by
  rw [map]
  cases o.answer with
  | error => simp [Except.map]
  | ok => simp [Except.map]

end Outcome

namespace Board

variable {b : Board} {refusal : Refusal}

/-! ### Loads -/

/-- **The two checks of a load**, the image first. -/
theorem load_answer (b : Board) (image data : Array UInt8) (zeroData : Bool) :
    (b.load image data zeroData).answer =
      if b.core.code.size < image.size then .error (.imageTooLong image.size b.core.code.size)
      else if b.core.data.size < data.size then .error (.dataTooLong data.size b.core.data.size)
      else .ok ((initialData b.core.data.size data zeroData).length + image.size) := by
  unfold load
  dsimp only
  split
  · rfl
  · split <;> rfl

/-- A load is refused for its image, or else for its data. -/
theorem load_eq_error_iff {image data : Array UInt8} {zeroData : Bool} :
    (b.load image data zeroData).answer = .error refusal ↔
      b.core.code.size < image.size ∧ refusal = .imageTooLong image.size b.core.code.size ∨
      image.size ≤ b.core.code.size ∧ b.core.data.size < data.size ∧
        refusal = .dataTooLong data.size b.core.data.size := by
  rw [load_answer]
  -- the cases are those of the checks, in their order
  by_cases h_image : b.core.code.size < image.size
  · rw [if_pos h_image, Except.error.injEq, eq_comm]
    constructor
    · exact fun h => Or.inl ⟨h_image, h⟩
    · rintro (⟨-, h⟩ | ⟨h_fits, -⟩)
      · exact h
      · exact absurd h_image (Nat.not_lt.mpr h_fits)
  · rw [if_neg h_image]
    by_cases h_data : b.core.data.size < data.size
    · rw [if_pos h_data, Except.error.injEq, eq_comm]
      constructor
      · exact fun h => Or.inr ⟨Nat.not_lt.mp h_image, h_data, h⟩
      · rintro (⟨h_long, -⟩ | ⟨-, -, h⟩)
        · exact absurd h_long h_image
        · exact h
    · simp [h_image, h_data]

/-- Both checks of a load come before its first clock. -/
theorem board_load_of_error {image data : Array UInt8} {zeroData : Bool}
    (h : (b.load image data zeroData).answer = .error refusal) :
    (b.load image data zeroData).board = b := by
  unfold load
  rcases load_eq_error_iff.mp h with ⟨h_image, -⟩ | ⟨h_image, h_data, -⟩
  · rw [if_pos h_image]
    rfl
  · rw [if_neg (Nat.not_lt.mpr h_image), if_pos h_data]
    rfl

/-- **A text is refused as its compilation is, or for its data.** -/
theorem loadSource_eq_error_iff {source : String} {data : Array UInt8} {zeroData : Bool} :
    (b.loadSource source data zeroData).answer = .error refusal ↔
      (∃ violation, Program.compile source b.core.code.size = .error violation ∧
        refusal = .source source violation) ∨
      (∃ image, Program.compile source b.core.code.size = .ok image) ∧
        b.core.data.size < data.size ∧ refusal = .dataTooLong data.size b.core.data.size := by
  unfold loadSource
  dsimp only
  cases h_compile : Program.compile source b.core.code.size with
  | error violation => simp [eq_comm]
  | ok image =>
    -- what was compiled fits, so that only the data can be refused
    obtain ⟨p, -, -, rfl, h_capacity⟩ := Program.of_compile h_compile
    have h_fits : p.size ≤ b.core.code.size := by exact_mod_cast h_capacity
    change (b.load p.encode data zeroData).answer = .error refusal ↔ _
    rw [load_eq_error_iff, Program.size_encode]
    simp [h_fits, Nat.not_lt.mpr h_fits]

/-- A text that is refused leaves the board alone, as its load does. -/
theorem board_loadSource_of_error {source : String} {data : Array UInt8} {zeroData : Bool}
    (h : (b.loadSource source data zeroData).answer = .error refusal) :
    (b.loadSource source data zeroData).board = b := by
  unfold loadSource at h ⊢
  dsimp only at h ⊢
  cases h_compile : Program.compile source b.core.code.size with
  | error violation => rfl
  | ok image =>
    rw [h_compile] at h
    exact board_load_of_error h

/-! ### What is at fault -/

/-- The kind of a refused load tells which check failed. -/
theorem kind_of_load {image data : Array UInt8} {zeroData : Bool}
    (h : (b.load image data zeroData).answer = .error refusal) :
    refusal.kind =
      if b.core.code.size < image.size then .program .programTooLarge else .value := by
  rcases load_eq_error_iff.mp h with ⟨h_image, rfl⟩ | ⟨h_image, -, rfl⟩
  · exact (if_pos h_image).symm
  · exact (if_neg (Nat.not_lt.mpr h_image)).symm

/-- A text that is compiled can only be refused for its data; another one is refused as a
program, in the way that the compiler reports. -/
theorem kind_of_loadSource {source : String} {data : Array UInt8} {zeroData : Bool}
    (h : (b.loadSource source data zeroData).answer = .error refusal) :
    refusal.kind =
      match Program.compile source b.core.code.size with
      | .error violation => .program (violation.diagnose source).category
      | .ok _ => .value := by
  rcases loadSource_eq_error_iff.mp h with
    ⟨violation, h_compile, rfl⟩ | ⟨⟨image, h_compile⟩, -, rfl⟩
  · rw [h_compile]
    rfl
  · rw [h_compile]
    rfl

/-! ### Runs -/

/-- The operations that run instructions. -/
inductive Action.Runs : Action → Prop
  | step : Runs .step
  | run (count : Int) : Runs (.run count)
  | runTo (address limit : Int) : Runs (.runTo address limit)
  | runUntilOutput (wanted limit : Int) : Runs (.runUntilOutput wanted limit)

namespace Action.Runs

variable {action : Action}

/-- Before a reset each of the four is refused as it stands. -/
theorem perform_of_not_booted (h : action.Runs) (h_booted : b.booted = false) :
    b.perform action = .refused .notBooted b := by
  cases h with
  | step => rw [perform, Board.step, whenBooted, h_booted]; rfl
  | run count => rw [perform, Board.run, whenBooted, h_booted]; rfl
  | runTo address limit => rw [perform, Board.runTo, whenBooted, h_booted]; rfl
  | runUntilOutput wanted limit => rw [perform, Board.runUntilOutput, whenBooted, h_booted]; rfl

/-- A run that was begun has an answer, whatever happens on the way. -/
theorem exists_answer (h : action.Runs) (h_booted : b.booted = true) :
    ∃ reply, (b.perform action).answer = .ok reply := by
  cases h with
  | step => rw [perform, Board.step, whenBooted, h_booted]; exact ⟨_, rfl⟩
  | run count => rw [perform, Board.run, whenBooted, h_booted]; exact ⟨_, rfl⟩
  | runTo address limit =>
    rw [perform, Board.runTo, whenBooted, h_booted, if_pos rfl]
    dsimp only
    -- the address is found, or the clocks are used up
    split <;> exact ⟨_, rfl⟩
  | runUntilOutput wanted limit =>
    rw [perform, Board.runUntilOutput, whenBooted, h_booted]; exact ⟨_, rfl⟩

/-- **A run is refused exactly on a core that was not reset.** -/
theorem answer_eq_error_iff (h : action.Runs) (b : Board) :
    (b.perform action).answer = .error refusal ↔ b.booted = false ∧ refusal = .notBooted := by
  -- on a core that was reset the run has an answer, so both sides are false
  cases h_booted : b.booted with
  | false =>
    rw [h.perform_of_not_booted h_booted]
    simp [Outcome.refused, eq_comm]
  | true =>
    obtain ⟨reply, h_answer⟩ := h.exists_answer h_booted
    simp [h_answer]

/-- A run that is refused was not begun. -/
theorem board_of_error (h : action.Runs) (h_error : (b.perform action).answer = .error refusal) :
    (b.perform action).board = b := by
  rw [h.perform_of_not_booted ((h.answer_eq_error_iff b).mp h_error).1]
  rfl

end Action.Runs

/-! ### All operations -/

/-- **A refused operation was not begun.** -/
theorem board_perform_of_error {action : Action}
    (h : (b.perform action).answer = .error refusal) : (b.perform action).board = b := by
  -- the operations that are left over at the end are never refused
  cases action with
  | load image data zeroData => exact board_load_of_error (Outcome.answer_map_eq_error_iff.mp h)
  | loadSource source data zeroData =>
    exact board_loadSource_of_error (Outcome.answer_map_eq_error_iff.mp h)
  | step => exact Action.Runs.step.board_of_error h
  | run count => exact (Action.Runs.run count).board_of_error h
  | runTo address limit => exact (Action.Runs.runTo address limit).board_of_error h
  | runUntilOutput wanted limit => exact (Action.Runs.runUntilOutput wanted limit).board_of_error h
  | boot | core | link | terminal => cases h

/-- The refusals with which an operation may end. -/
inductive Action.MayMeet : Action → Refusal → Prop
  | image (image data : Array UInt8) (zeroData : Bool) (words capacity : Nat) :
      MayMeet (.load image data zeroData) (.imageTooLong words capacity)
  | data (image data : Array UInt8) (zeroData : Bool) (bytes capacity : Nat) :
      MayMeet (.load image data zeroData) (.dataTooLong bytes capacity)
  | source (source : String) (data : Array UInt8) (zeroData : Bool) (violation : Violation) :
      MayMeet (.loadSource source data zeroData) (.source source violation)
  | sourceData (source : String) (data : Array UInt8) (zeroData : Bool) (bytes capacity : Nat) :
      MayMeet (.loadSource source data zeroData) (.dataTooLong bytes capacity)
  | notBooted {action : Action} (h : action.Runs) : MayMeet action .notBooted

/-- An operation meets only the refusals that are listed for it. -/
theorem mayMeet_of_error {action : Action} (h : (b.perform action).answer = .error refusal) :
    action.MayMeet refusal := by
  -- the four runs have one refusal in common
  have h_runs : action.Runs → action.MayMeet refusal := by
    intro h_runs
    obtain ⟨-, rfl⟩ := (h_runs.answer_eq_error_iff b).mp h
    exact .notBooted h_runs
  cases action with
  | load image data zeroData =>
    rcases load_eq_error_iff.mp (Outcome.answer_map_eq_error_iff.mp h) with ⟨-, rfl⟩ | ⟨-, -, rfl⟩
    · exact .image image data zeroData _ _
    · exact .data image data zeroData _ _
  | loadSource source data zeroData =>
    rcases loadSource_eq_error_iff.mp (Outcome.answer_map_eq_error_iff.mp h) with
      ⟨violation, -, rfl⟩ | ⟨-, -, rfl⟩
    · exact .source source data zeroData violation
    · exact .sourceData source data zeroData _ _
  | step => exact h_runs .step
  | run count => exact h_runs (.run count)
  | runTo address limit => exact h_runs (.runTo address limit)
  | runUntilOutput wanted limit => exact h_runs (.runUntilOutput wanted limit)
  | boot | core | link | terminal => cases h

/-! ### The statement -/

/-- **Refusals are exact, and leave nothing behind.** On any board:

* an operation that is refused leaves the board as it was;
* a load is refused exactly if its image has more words than code memory, or else its
  data more bytes than data memory; the report on an image has no place in a text;
* a text is refused exactly as its compilation is, with the report of the compiler, or
  else for its data; its report, if it has one, names a place in the text;
* a run is refused exactly if the core was not reset;
* the kind of a refusal follows: for a load that of a program that is too large or of a
  bad value, by the check that failed; for a text the one that the compiler reports or
  that of a bad value; for a run that of a bad state; and a report has the same kind;
* so after any refusal on a core that was reset, every run is carried out and is the
  run that there would have been. -/
theorem refusals_exact (b : Board) :
    (∀ action refusal, (b.perform action).answer = .error refusal →
      (b.perform action).board = b) ∧
    (∀ image data zeroData refusal,
      (b.perform (.load image data zeroData)).answer = .error refusal ↔
        b.core.code.size < image.size ∧ refusal = .imageTooLong image.size b.core.code.size ∨
        image.size ≤ b.core.code.size ∧ b.core.data.size < data.size ∧
          refusal = .dataTooLong data.size b.core.data.size) ∧
    (∀ words capacity, ∃ report, (Refusal.imageTooLong words capacity).diagnostic? = some report ∧
      report.category = .programTooLarge ∧ report.location = none) ∧
    (∀ source data zeroData refusal,
      (b.perform (.loadSource source data zeroData)).answer = .error refusal ↔
        (∃ violation, Program.compile source b.core.code.size = .error violation ∧
          refusal = .source source violation) ∨
        (∃ image, Program.compile source b.core.code.size = .ok image) ∧
          b.core.data.size < data.size ∧ refusal = .dataTooLong data.size b.core.data.size) ∧
    (∀ source violation,
      (Refusal.source source violation).diagnostic? = some (violation.diagnose source)) ∧
    (∀ source data zeroData refusal report,
      (b.perform (.loadSource source data zeroData)).answer = .error refusal →
        refusal.diagnostic? = some report → report.location.isSome) ∧
    (∀ action : Action, action.Runs → ∀ refusal,
      (b.perform action).answer = .error refusal ↔ b.booted = false ∧ refusal = .notBooted) ∧
    (∀ image data zeroData refusal,
      (b.perform (.load image data zeroData)).answer = .error refusal →
        refusal.kind =
          if b.core.code.size < image.size then .program .programTooLarge else .value) ∧
    (∀ source data zeroData refusal,
      (b.perform (.loadSource source data zeroData)).answer = .error refusal →
        refusal.kind =
          match Program.compile source b.core.code.size with
          | .error violation => .program (violation.diagnose source).category
          | .ok _ => .value) ∧
    (∀ action : Action, action.Runs → ∀ refusal,
      (b.perform action).answer = .error refusal → refusal.kind = .state) ∧
    (∀ (refusal : Refusal) report, refusal.diagnostic? = some report →
      refusal.kind = .program report.category) ∧
    (b.booted = true → ∀ action refusal, (b.perform action).answer = .error refusal →
      ∀ run : Action, run.Runs →
        (∃ reply, ((b.perform action).board.perform run).answer = .ok reply) ∧
          (b.perform action).board.perform run = b.perform run) := by
  refine ⟨fun _ _ => board_perform_of_error, fun _ _ _ _ => ?_, fun _ _ => ⟨_, rfl, rfl, rfl⟩,
    fun _ _ _ _ => ?_, fun _ _ => rfl, fun source data zeroData refusal report h h_report => ?_,
    fun _ h_runs _ => h_runs.answer_eq_error_iff b,
    fun _ _ _ _ h => kind_of_load (Outcome.answer_map_eq_error_iff.mp h),
    fun _ _ _ _ h => kind_of_loadSource (Outcome.answer_map_eq_error_iff.mp h),
    fun _ h_runs _ h => ?_, fun _ _ => Refusal.kind_of_diagnostic?,
    fun h_booted action refusal h run h_run => ?_⟩
  · exact Outcome.answer_map_eq_error_iff.trans load_eq_error_iff
  · exact Outcome.answer_map_eq_error_iff.trans loadSource_eq_error_iff
  -- a report on a text comes from the compiler, which had the text
  · rcases loadSource_eq_error_iff.mp (Outcome.answer_map_eq_error_iff.mp h) with
      ⟨violation, -, rfl⟩ | ⟨-, -, rfl⟩
    · obtain rfl : violation.diagnose source = report := Option.some.inj h_report
      rfl
    · cases h_report
  · rw [((h_runs.answer_eq_error_iff b).mp h).2]
    rfl
  · rw [board_perform_of_error h]
    exact ⟨h_run.exists_answer h_booted, rfl⟩

end Board

end TapeProcessor
