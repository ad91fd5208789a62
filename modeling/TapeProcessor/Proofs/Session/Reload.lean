import TapeProcessor.Proofs.Board.Correctness
import TapeProcessor.Proofs.Board.Refusals
import TapeProcessor.Proofs.Session.Moments
import TapeProcessor.Proofs.Session.Signals

/-!
# A load erases the past

Two boards have memories of the same sizes, and their terminals hold the same input and
accept output alike. In all else they may differ: in memories, registers and lines, in
what is offered on buses and channels, and in what they ran before. The same text is
loaded on both, data memory is cleared, and both are reset. From then on nothing tells
them apart, until the program has completed (`Board.reload_erases`).

That the image lies in both code memories is not enough for this, because behind it
they still differ. What matters is that a program never leaves its image: both cores
are at the same site of the program (`Board.Twins`), and what a core does at a site
follows from the site, the tape and the signals (`Core.AtSite.obeys`). One clock keeps
two boards twins (`Board.Twins.clock`), and a row of moves does so if none of its clocks
begins behind the end of the program (`Board.Within`).
-/

namespace TapeProcessor

/-- Only what the terminal drives and what the core reports is left of a link. -/
theorem Terminal.report_drive_congr {t₁ t₂ : Terminal} (h_pending : t₁.pending = t₂.pending)
    (h_accepting : t₁.accepting = t₂.accepting) (l₁ l₂ : Link) (sent : Option UInt8)
    (taken waiting : Bool) :
    (t₁.drive l₁).report sent taken waiting = (t₂.drive l₂).report sent taken waiting := by
  unfold drive Link.report
  rw [h_pending, h_accepting]

namespace Board

variable {b b₁ b₂ : Board} {action : Action} {actions : List Action} {moves : List Move}

/-! ### Operations that both boards are given -/

/-- Clocks, and what the host does at the terminal. -/
inductive Action.Common : Action → Prop
  | step : Common .step
  | run (count : Int) : Common (.run count)
  | inject (bytes : List UInt8) : Common (.terminal (.inject bytes))
  | accept (flag : Bool) : Common (.terminal (.accept flag))
  | drain : Common (.terminal .drain)

/-- What both boards are given is part of a schedule. -/
theorem Action.Common.scheduled (h : action.Common) : action.Scheduled := by
  cases h with
  | step => exact .step
  | run count => exact .run count
  | inject bytes => exact .inject bytes
  | accept flag => exact .accept flag
  | drain => exact .drain

/-- These operations load nothing and reset nothing. -/
theorem Action.Common.booted (h : action.Common) (b : Board) :
    (b.perform action).board.booted = b.booted := by
  rw [perform_board]
  refine invariant_after (I := fun b' => b'.booted = b.booted) ?_ (h.scheduled.moves action b) rfl
  intro b' m h_m h_b
  cases h_m with
  | clock | inject | accept | drain => exact h_b

theorem booted_session (h_actions : ∀ action ∈ actions, action.Common) (b : Board) :
    (b.session actions).booted = b.booted := by
  induction actions generalizing b with
  | nil => rfl
  | cons action rest ih =>
    have h_rest := ih (fun x hx => h_actions x (List.mem_cons_of_mem action hx))
      (b.perform action).board
    exact h_rest.trans ((h_actions action List.mem_cons_self).booted b)

/-- The moves of these operations do not depend on what the board does. -/
theorem Action.Common.moves_congr (h : action.Common) (h_booted : b₁.booted = b₂.booted) :
    b₁.moves action = b₂.moves action := by
  cases h with
  | step =>
    unfold Board.moves clocks
    rw [h_booted]
  | run count =>
    unfold Board.moves clocks
    rw [h_booted]
  | inject | accept | drain => rfl

/-- Sessions of them come to the same moves on boards that were both reset. -/
theorem sessionMoves_congr (h_actions : ∀ action ∈ actions, action.Common)
    (h_booted : b₁.booted = b₂.booted) : b₁.sessionMoves actions = b₂.sessionMoves actions := by
  induction actions generalizing b₁ b₂ with
  | nil => rfl
  | cons action rest ih =>
    have h_action := h_actions action List.mem_cons_self
    have h_next : (b₁.perform action).board.booted = (b₂.perform action).board.booted := by
      rw [h_action.booted, h_action.booted, h_booted]
    -- the first operation has the same moves on both, and leaves both reset or not
    rw [sessionMoves, sessionMoves, h_action.moves_congr h_booted,
      ih (fun x hx => h_actions x (List.mem_cons_of_mem action hx)) h_next]

/-- **What clocks show is all that a run answers with.** -/
theorem Action.Common.answer_congr (h : action.Common) (h_drain : action ≠ .terminal .drain)
    (h_booted₁ : b₁.booted = true) (h_booted₂ : b₂.booted = true)
    (h_shown : b₁.shown (b₁.moves action) = b₂.shown (b₂.moves action)) :
    (b₁.perform action).answer = (b₂.perform action).answer := by
  have h_step : ∀ b : Board, b.booted = true →
      (b.perform .step).answer = .ok (.flag b.clock.1) ∧
        b.moves .step = clockMoves 1 := by
    intro b h_booted
    rw [perform, Board.step, whenBooted, Board.moves, clocks, if_pos h_booted, if_pos h_booted]
    exact ⟨rfl, rfl⟩
  have h_run : ∀ (b : Board) (count : Int), b.booted = true →
      (b.perform (.run count)).answer = .ok (.count (Clock.retired clock count.toNat b)) ∧
        b.moves (.run count) = clockMoves count.toNat := by
    intro b count h_booted
    rw [perform, Board.run, whenBooted, Board.moves, clocks, if_pos h_booted, if_pos h_booted,
      Clock.run_eq]
    exact ⟨rfl, rfl⟩
  cases h with
  | step =>
    obtain ⟨h_answer₁, h_moves₁⟩ := h_step b₁ h_booted₁
    obtain ⟨h_answer₂, h_moves₂⟩ := h_step b₂ h_booted₂
    rw [h_moves₁, h_moves₂] at h_shown
    have h_clock : (b₁.clock.1, b₁.clock.2.core.link) = (b₂.clock.1, b₂.clock.2.core.link) :=
      (List.cons.inj h_shown).1
    rw [h_answer₁, h_answer₂, (Prod.mk.inj h_clock).1]
  | run count =>
    obtain ⟨h_answer₁, h_moves₁⟩ := h_run b₁ count h_booted₁
    obtain ⟨h_answer₂, h_moves₂⟩ := h_run b₂ count h_booted₂
    -- the number of instructions that retired is counted in what is shown
    rw [h_moves₁, h_moves₂] at h_shown
    rw [h_answer₁, h_answer₂, retired_eq_countP, retired_eq_countP, h_shown]
  | inject | accept => rfl
  | drain => exact absurd rfl h_drain

/-! ### Until the program completes -/

/-- The next clock takes the core to the address behind a program of so many words, as
the pointer is before it wraps. -/
def Completes (b : Board) (words : ℕ) : Prop := b.drivenCore.plan.ip = words

instance (b : Board) (words : ℕ) : Decidable (b.Completes words) :=
  inferInstanceAs (Decidable (b.drivenCore.plan.ip = words))

/-- No clock of a row of moves begins after a program of so many words has completed. The
program without words has completed before it starts. -/
def Within (b : Board) (words : ℕ) (moves : List Move) : Prop :=
  ∀ front back, moves = front ++ .clock :: back →
    words ≠ 0 ∧ b.EachClock (fun b => ¬ b.Completes words) front

theorem Within.of_append {words : ℕ} {back : List Move} (h : b.Within words (moves ++ back)) :
    b.Within words moves := by
  rintro front rest rfl
  exact h front (rest ++ back) (List.append_assoc _ _ _)

/-- It is enough that no clock completes the program. -/
theorem within_of_eachClock {words : ℕ} (h_words : words ≠ 0)
    (h : b.EachClock (fun b => ¬ b.Completes words) moves) : b.Within words moves := by
  rintro front back rfl
  exact ⟨h_words, (eachClock_append.mp h).1⟩

/-! ### Twins -/

/-- Two boards with memories of the same sizes, whose terminals hold the same input and
accept output alike, and send nothing back. -/
structure Comparable (b₁ b₂ : Board) : Prop where
  code_size : b₁.core.code.size = b₂.core.code.size
  data_size : b₁.core.data.size = b₂.core.data.size
  pending : b₁.terminal.pending = b₂.terminal.pending
  accepting : b₁.terminal.accepting = b₂.terminal.accepting
  silent₁ : b₁.terminal.listener ≠ .echo
  silent₂ : b₂.terminal.listener ≠ .echo

/-- Two boards whose cores are at the same site of the same program, and which agree in
all that the program can come to see. Their code memories may differ behind it. -/
structure Twins (b₁ b₂ : Board) (n : ℕ) (p : Program) (f : Site) : Prop
    extends Comparable b₁ b₂ where
  first : b₁.core.AtSite n p f
  second : b₂.core.AtSite n p f
  tape : b₁.core.tape n = b₂.core.tape n
  link : b₁.core.link = b₂.core.link

/-- Terminals that sample the same signals stay comparable. -/
theorem Comparable.clock (h : Comparable b₁ b₂)
    (h_link : b₁.clock.2.core.link = b₂.clock.2.core.link) : Comparable b₁.clock.2 b₂.clock.2 := by
  have h_terminal₁ : b₁.clock.2.terminal = b₁.terminal.sample b₁.clock.2.core.link := rfl
  have h_terminal₂ : b₂.clock.2.terminal = b₂.terminal.sample b₁.clock.2.core.link := by
    rw [h_link]
    rfl
  refine ⟨?_, ?_, ?_, ?_, ?_, ?_⟩
  · rw [code_size_clock, code_size_clock, h.code_size]
  · rw [data_size_clock, data_size_clock, h.data_size]
  · rw [h_terminal₁, h_terminal₂, Terminal.pending_sample _ _ h.silent₁,
      Terminal.pending_sample _ _ h.silent₂, h.pending]
  · rw [h_terminal₁, h_terminal₂, Terminal.accepting_sample, Terminal.accepting_sample,
      h.accepting]
  · rw [h_terminal₁, Terminal.listener_sample]
    exact h.silent₁
  · rw [h_terminal₂, Terminal.listener_sample]
    exact h.silent₂

namespace Twins

variable {n : ℕ} {p : Program} {f : Site}

/-- Twins have the same instruction pointer, since it is the address of their site. -/
theorem ip (h : Twins b₁ b₂ n p f) : b₁.core.ip = b₂.core.ip := by
  rw [h.first.ip, h.second.ip, h.code_size]

/-- They have the same data pointer, since it is the head of their tape. -/
theorem dp (h : Twins b₁ b₂ n p f) : b₁.core.dp = b₂.core.dp := by
  rw [← Core.head_val h.first.mode.dp_lt, ← Core.head_val h.second.mode.dp_lt, h.tape]

/-- They have the same data memory, since it holds the cells of their tape. -/
theorem data (h : Twins b₁ b₂ n p f) : b₁.core.data = b₂.core.data := by
  have h_read : ∀ a < n, b₁.core.data.read a = b₂.core.data.read a := by
    intro a h_a
    -- an address below the number of cells is its own remainder
    have h_cell := congrFun (congrArg Tape.cells h.tape) (a : ZMod n)
    rw [← ZMod.val_natCast_of_lt h_a]
    exact h_cell
  refine Memory.ext (Array.ext (h.first.mode.size.trans h.second.mode.size.symm) ?_)
  intro a h_a₁ h_a₂
  have h_cell := h_read a (h.first.mode.size ▸ h_a₁)
  rwa [Memory.read, Memory.read, Array.getD_eq_getD_getElem?, Array.getD_eq_getD_getElem?,
    Array.getElem?_eq_getElem h_a₁, Array.getElem?_eq_getElem h_a₂] at h_cell

/-- **One clock of two twins.** Away from the end, both retire or both wait, and they are
twins again. If they come to the end, the program completes on this clock. -/
theorem clock (h : Twins b₁ b₂ n p f) (h_ne : f ≠ Site.finish) :
    b₁.clock.1 = b₂.clock.1 ∧
      ∃ f', Twins b₁.clock.2 b₂.clock.2 n p f' ∧ (f' = Site.finish → b₁.Completes p.size) := by
  have h_first : b₁.drivenCore.AtSite n p f := h.first.withLink _
  have h_second : b₂.drivenCore.AtSite n p f := h.second.withLink _
  have h_signals : b₁.drivenCore.link.signals = b₂.drivenCore.link.signals := by
    rw [signals_drivenCore, signals_drivenCore, h.accepting, h.pending]
  have h_tape : b₁.drivenCore.tape n = b₂.drivenCore.tape n := h.tape
  have h_report := Terminal.report_drive_congr h.pending h.accepting b₁.core.link b₂.core.link
  -- the site asks the same of both
  have h_obeys₁ := h_first.obeys h_ne
  have h_obeys₂ := h_second.obeys h_ne
  rw [← h_signals, ← h_tape] at h_obeys₂
  cases h_turn : f.turn b₁.drivenCore.link.signals (b₁.drivenCore.tape n) with
  | finished => exact absurd ((f.turn_eq_finished_iff _ _).mp h_turn) h_ne
  | waits =>
    rw [h_turn] at h_obeys₁ h_obeys₂
    have h_stays₁ : b₁.drivenCore.Stays n := h_obeys₁
    have h_stays₂ : b₂.drivenCore.Stays n := h_obeys₂
    have h_opcode : b₁.drivenCore.opcode = b₂.drivenCore.opcode := by
      obtain ⟨op, ops, h_rest⟩ := List.exists_cons_of_ne_nil (f.rest_eq_nil_iff.not.mpr h_ne)
      rw [h_first.opcode_eq h_rest, h_second.opcode_eq h_rest]
    refine ⟨h_stays₁.stalls.trans h_stays₂.stalls.symm, f, ?_, fun h_finish => absurd h_finish h_ne⟩
    -- the core reports which of the two instructions waits
    have h_link : b₁.clock.2.core.link = b₂.clock.2.core.link := by
      rw [core_clock, core_clock, h_stays₁.link, h_stays₂.link, h_opcode]
      exact h_report none false _
    exact ⟨h.toComparable.clock h_link, h_first.of_stays h_stays₁, h_second.of_stays h_stays₂,
      (h_stays₁.tape.trans h_tape).trans h_stays₂.tape.symm, h_link⟩
  | goes f' deed =>
    rw [h_turn] at h_obeys₁ h_obeys₂
    have h_carries₁ : b₁.drivenCore.Carries n (f'.address p) deed := h_obeys₁
    have h_carries₂ : b₂.drivenCore.Carries n (f'.address p) deed := h_obeys₂
    have h_in : f'.Inside p := h.first.inside.turn h_turn
    refine ⟨h_carries₁.retires.trans h_carries₂.retires.symm, f', ?_, ?_⟩
    · have h_link : b₁.clock.2.core.link = b₂.clock.2.core.link := by
        rw [core_clock, core_clock, h_carries₁.link, h_carries₂.link]
        exact h_report _ _ _
      -- the deed is the same, so what passes on the link is the same as well
      exact ⟨h.toComparable.clock h_link, h_first.of_carries h_in h_carries₁,
        h_second.of_carries h_in h_carries₂, h_carries₁.tape.trans h_carries₂.tape.symm, h_link⟩
    · rintro rfl
      rw [Completes, h_first.plan_ip_of_goes h_turn, Site.address_finish]

/-- What the host does at both terminals leaves the boards twins. -/
theorem apply (h : Twins b₁ b₂ n p f) {m : Move} (h_m : m.Scheduled) (h_ne : m ≠ .clock) :
    Twins (m.apply b₁) (m.apply b₂) n p f := by
  obtain ⟨⟨h_words, h_cells, h_pending, h_accepting, h₁, h₂⟩, h_first, h_second, h_tape,
    h_link⟩ := h
  cases h_m with
  | clock => exact absurd rfl h_ne
  | inject bytes =>
    exact ⟨⟨h_words, h_cells, congrArg (· ++ bytes) h_pending, h_accepting, h₁, h₂⟩,
      h_first.withLink _, h_second.withLink _, h_tape, h_link⟩
  | accept flag =>
    exact ⟨⟨h_words, h_cells, h_pending, rfl, h₁, h₂⟩, h_first.withLink _, h_second.withLink _,
      h_tape, h_link⟩
  | drain =>
    exact ⟨⟨h_words, h_cells, h_pending, h_accepting, h₁, h₂⟩, h_first.withLink _,
      h_second.withLink _, h_tape, h_link⟩

/-- **Two twins stay twins**, and show the same, as long as no clock begins at the end of
the program. -/
theorem through (h : Twins b₁ b₂ n p f) (h_moves : ∀ m ∈ moves, m.Scheduled)
    (h_within : ∀ front back, moves = front ++ .clock :: back →
      f ≠ Site.finish ∧ b₁.EachClock (fun b => ¬ b.Completes p.size) front) :
    b₁.shown moves = b₂.shown moves ∧ ∃ f', Twins (b₁.after moves) (b₂.after moves) n p f' := by
  induction moves generalizing b₁ b₂ f with
  | nil => exact ⟨rfl, f, h⟩
  | cons m rest ih =>
    have h_rest : ∀ m ∈ rest, m.Scheduled := fun x hx => h_moves x (List.mem_cons_of_mem m hx)
    by_cases h_clock : m = .clock
    · subst h_clock
      obtain ⟨h_ne, -⟩ := h_within [] rest rfl
      obtain ⟨h_retired, f', h_next, h_completes⟩ := h.clock h_ne
      obtain ⟨h_shown, h_last⟩ := ih h_next h_rest fun front back h_split => by
        obtain ⟨-, h_each⟩ := h_within (.clock :: front) back (congrArg (.clock :: ·) h_split)
        obtain ⟨h_first, h_later⟩ := eachClock_cons.mp h_each
        exact ⟨fun h_finish => h_first rfl (h_completes h_finish), h_later⟩
      refine ⟨?_, h_last⟩
      calc b₁.shown (.clock :: rest)
          = (b₁.clock.1, b₁.clock.2.core.link) :: b₁.clock.2.shown rest := rfl
        _ = (b₂.clock.1, b₂.clock.2.core.link) :: b₂.clock.2.shown rest := by
          rw [h_retired, h_next.link, h_shown]
        _ = b₂.shown (.clock :: rest) := rfl
    · obtain ⟨h_shown, h_last⟩ :=
        ih (h.apply (h_moves m List.mem_cons_self) h_clock) h_rest fun front back h_split => by
          obtain ⟨h_ne, h_each⟩ := h_within (m :: front) back (congrArg (m :: ·) h_split)
          exact ⟨h_ne, (eachClock_cons.mp h_each).2⟩
      refine ⟨?_, h_last⟩
      rw [shown, shown, shows_of_ne_clock h_clock, shows_of_ne_clock h_clock, h_shown]

end Twins

/-! ### Loading on two boards -/

/-- A boot leaves on the link what the terminal drives, and nothing of what was there. -/
theorem link_boot (b : Board) :
    b.boot.board.core.link = (b.boot.board.terminal.drive b.core.link).report none false false := by
  have h_held : b.resetting.drivenCore.Held := Or.inr rfl
  have h_link : b.boot.board.core.link
      = (b.resetting.drivenCore.commit b.resetting.drivenCore.plan).link := rfl
  have h_terminal : b.boot.board.terminal = b.terminal :=
    terminal_clock_of_held (b := b.resetting) h_held
  rw [h_link, h_held.plan_eq, h_terminal]
  rfl

/-- Whether a load succeeds depends on the sizes of the memories only. -/
theorem Comparable.answer_loadSource (h : Comparable b₁ b₂) (source : String)
    (data : Array UInt8) :
    (b₁.loadSource source data true).answer = (b₂.loadSource source data true).answer := by
  unfold loadSource
  rw [h.code_size]
  cases Program.compile source b₂.core.code.size with
  | error violation => rfl
  | ok image =>
    dsimp only
    rw [load_answer, load_answer, h.code_size, h.data_size]

/-- **The same text makes twins** of comparable boards. -/
theorem Comparable.exists_twins (h : Comparable b₁ b₂) {source : String} {data : Array UInt8}
    {clocks : ℕ} (h_load : (b₁.loadSource source data true).answer = .ok clocks) :
    ∃ p : Program, p.size = (b₁.loadSource source data true).board.imageSize ∧
      Twins (b₁.loadSource source data true).board.boot.board
        (b₂.loadSource source data true).board.boot.board b₁.core.data.size p (Site.start p) := by
  have h_load₂ := (h.answer_loadSource source data).symm.trans h_load
  obtain ⟨p, h_tree, h_size, h_first, h_code₁, h_tape₁, h_terminal₁⟩ := exists_starts h_load
  obtain ⟨q, h_tree', -, h_second, h_code₂, h_tape₂, h_terminal₂⟩ := exists_starts h_load₂
  -- the tree is the same, since the text is
  obtain rfl := Program.opcodes_injective (h_tree.trans h_tree'.symm)
  rw [← h.data_size] at h_second h_tape₂
  generalize (b₁.loadSource source data true).board = loaded₁
    at h_size h_first h_code₁ h_tape₁ h_terminal₁ ⊢
  generalize (b₂.loadSource source data true).board = loaded₂
    at h_second h_code₂ h_tape₂ h_terminal₂ ⊢
  -- a load and a boot keep sizes and terminals
  have h_comparable : Comparable loaded₁.boot.board loaded₂.boot.board := by
    refine ⟨?_, ?_, ?_, ?_, ?_, ?_⟩
    · rw [h_code₁, h_code₂, h.code_size]
    · rw [h_first.mode.size, h_second.mode.size]
    · rw [h_terminal₁, h_terminal₂, h.pending]
    · rw [h_terminal₁, h_terminal₂, h.accepting]
    · rw [h_terminal₁]
      exact h.silent₁
    · rw [h_terminal₂]
      exact h.silent₂
  refine ⟨p, h_size, h_comparable, h_first, h_second, h_tape₁.trans h_tape₂.symm, ?_⟩
  rw [link_boot, link_boot]
  exact Terminal.report_drive_congr h_comparable.pending h_comparable.accepting _ _ none false false

/-! ### Reloading -/

/-- A row of moves does the same to two boards: its clocks show the same, the registers,
data memory and the signals are the same behind it, and the same bytes are consumed and
sent. -/
structure Alike (b₁ b₂ : Board) (moves : List Move) : Prop where
  shown : b₁.shown moves = b₂.shown moves
  ip : (b₁.after moves).core.ip = (b₂.after moves).core.ip
  dp : (b₁.after moves).core.dp = (b₂.after moves).core.dp
  data : (b₁.after moves).core.data = (b₂.after moves).core.data
  link : (b₁.after moves).core.link = (b₂.after moves).core.link
  passes : ∃ consumed emitted, b₁.Passes moves consumed emitted ∧ b₂.Passes moves consumed emitted

/-- **A load erases the past.** Two boards in any states agree in the sizes of their
memories, in the input that waits, and in whether output is accepted; their listeners
send nothing back. If a text is loaded on the first, with data memory cleared, then it
is loaded on the second. Both are reset, and given the same operations. Then these come
to the same moves; and at every moment up to which no clock began after the program
completed, the boards are alike. Up to there all operations answer alike, save that the
host may collect output from before the load. -/
theorem reload_erases (h : Comparable b₁ b₂) {source : String} {data : Array UInt8} {clocks : ℕ}
    (h_load : (b₁.loadSource source data true).answer = .ok clocks) :
    (b₂.loadSource source data true).answer = .ok clocks ∧
    let start₁ := (b₁.loadSource source data true).board.boot.board
    let start₂ := (b₂.loadSource source data true).board.boot.board
    let words := (b₁.loadSource source data true).board.imageSize
    ∀ actions : List Action, (∀ action ∈ actions, action.Common) →
      start₂.sessionMoves actions = start₁.sessionMoves actions ∧
      (∀ moves, moves <+: start₁.sessionMoves actions → start₁.Within words moves →
        start₁.Alike start₂ moves) ∧
      ∀ action : Action, action.Common → action ≠ .terminal .drain →
        start₁.Within words (start₁.sessionMoves (actions ++ [action])) →
        ((start₁.session actions).perform action).answer
          = ((start₂.session actions).perform action).answer := by
  refine ⟨(h.answer_loadSource source data).symm.trans h_load, ?_⟩
  intro start₁ start₂ words actions h_actions
  obtain ⟨p, h_size, h_twins⟩ := h.exists_twins h_load
  -- the program that has words does not start at its end
  have h_start : words ≠ 0 → Site.start p ≠ Site.finish := by
    intro h_words h_finish
    have h_address := congrArg (Site.address p) h_finish
    rw [Site.address_start, Site.address_finish, h_size] at h_address
    exact h_words h_address.symm
  have h_through : ∀ moves, (∀ m ∈ moves, m.Scheduled) → start₁.Within words moves →
      start₁.shown moves = start₂.shown moves ∧
        ∃ f, Twins (start₁.after moves) (start₂.after moves) b₁.core.data.size p f := by
    intro moves h_moves h_within
    refine h_twins.through h_moves fun front back h_split => ?_
    obtain ⟨h_words, h_each⟩ := h_within front back h_split
    rw [h_size]
    exact ⟨h_start h_words, h_each⟩
  have h_same : start₂.sessionMoves actions = start₁.sessionMoves actions :=
    sessionMoves_congr h_actions rfl
  have h_scheduled : ∀ m ∈ start₁.sessionMoves actions, m.Scheduled :=
    forall_mem_sessionMoves Action.Scheduled.moves (fun a h_a => (h_actions a h_a).scheduled) start₁
  refine ⟨h_same, fun moves h_front h_within => ?_, fun action h_action h_drain h_within => ?_⟩
  · have h_moves : ∀ m ∈ moves, m.Scheduled := fun m h_m => h_scheduled m (h_front.subset h_m)
    obtain ⟨h_shown, f, h_last⟩ := h_through moves h_moves h_within
    refine ⟨h_shown, h_last.ip, h_last.dp, h_last.data, h_last.link, _, _,
      passes_shown h_twins.silent₁ h_moves, ?_⟩
    rw [h_shown]
    exact passes_shown h_twins.silent₂ h_moves
  -- what the last operation shows is what the session shows with it and not without it
  · rw [sessionMoves_concat] at h_within
    have h_last : ∀ m ∈ (start₁.session actions).moves action, m.Scheduled :=
      h_action.scheduled.moves action _
    obtain ⟨h_before, -⟩ := h_through _ h_scheduled h_within.of_append
    obtain ⟨h_all, -⟩ := h_through _
      (fun m h_m => (List.mem_append.mp h_m).elim (h_scheduled m) (h_last m)) h_within
    rw [shown_append, shown_append, h_before, after_sessionMoves, ← h_same, after_sessionMoves]
      at h_all
    have h_booted₁ : (start₁.session actions).booted = true := booted_session h_actions start₁
    have h_booted₂ : (start₂.session actions).booted = true := booted_session h_actions start₂
    refine h_action.answer_congr h_drain h_booted₁ h_booted₂ ?_
    rw [← h_action.moves_congr (h_booted₁.trans h_booted₂.symm)]
    exact List.append_cancel_left h_all

/-- The small board after part of a longer program, with output that was not collected.
Then it was stopped in load mode and under reset, with words offered on both buses. -/
def usedBoard : Board :=
  smallBoard.session
    [.loadSource "+[>+++.<-]>." #[9] false, .boot, .run 9, .core (.setInit true),
      .core (.setBoot true), .core (.offer .code 3 77), .core (.offer .data (-1) 200),
      .link (.outputValid true), .link (.inputTaken true), .core (.setIp 11)]

/-- Nothing of this is seen in the countdown of the small board, nine of whose ten clocks
are run. -/
theorem reload_erases_used :
    let source := ",[.-]"
    let start₁ := (smallBoard.loadSource source #[3] true).board.boot.board
    let start₂ := (usedBoard.loadSource source #[3] true).board.boot.board
    Comparable smallBoard usedBoard ∧ usedBoard.core.ip = 11 ∧
      usedBoard.terminal.received = #[3] ∧
      start₁.core.code.read 8 ≠ start₂.core.code.read 8 ∧
      (start₁.session [.run 4]).core.data = (start₂.session [.run 4]).core.data ∧
      ((start₁.session [.run 4]).perform (.run 5)).answer
        = ((start₂.session [.run 4]).perform (.run 5)).answer := by
  intro source start₁ start₂
  have h : Comparable smallBoard usedBoard := by
    refine ⟨?_, ?_, ?_, ?_, ?_, ?_⟩ <;> decide +kernel
  have h_load : (smallBoard.loadSource source #[3] true).answer = .ok 9 := by decide +kernel
  have h_size : (smallBoard.loadSource source #[3] true).board.imageSize = 7 := by decide +kernel
  obtain ⟨-, h_alike⟩ := reload_erases h h_load
  obtain ⟨-, h_moments, h_answers⟩ := h_alike [.run 4] (by simp [Action.Common.run])
  rw [h_size] at h_moments h_answers
  -- the program completes on the tenth clock
  have h_each : start₁.EachClock (fun b => ¬ b.Completes 7) (clockMoves 9) :=
    eachClock_clockMoves.mpr (by decide +kernel)
  have h_nine : start₁.Within 7 (clockMoves 4 ++ clockMoves 5) :=
    within_of_eachClock (by simp) h_each
  have h_four₁ : start₁.sessionMoves [.run 4] = clockMoves 4 := rfl
  have h_four₂ : start₂.sessionMoves [.run 4] = clockMoves 4 := rfl
  have h_five : (start₁.session [.run 4]).moves (.run 5) = clockMoves 5 := by
    rw [moves, clocks, if_pos (by decide +kernel)]
    rfl
  refine ⟨h, by decide +kernel, by decide +kernel, by decide +kernel, ?_, ?_⟩
  · rw [← after_sessionMoves, ← after_sessionMoves, h_four₁, h_four₂]
    exact (h_moments (clockMoves 4) (List.prefix_refl _) h_nine.of_append).data
  · refine h_answers (.run 5) (.run 5) (by simp) ?_
    rwa [sessionMoves_concat, h_four₁, h_five]

end Board

end TapeProcessor
