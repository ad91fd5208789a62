import TapeProcessor.Proofs.Board.Exchange
import TapeProcessor.Proofs.Board.Loading
import TapeProcessor.Proofs.Source.Walk
import TapeProcessor.Board.Run
import TapeProcessor.Text.Latin1

/-!
# A loaded program computes what its text means

`Board.runTo_correct` is the statement about the whole chain. A source text is
loaded on a board in any state, the core is reset, and the board runs until the
instruction pointer is behind the image. This happens within a number of clocks if
and only if the structured semantics of the text terminates within that number of
steps; then the clocks are the steps, and the output, the data memory, the data
pointer and the rest of the input are those of the semantics.

`Board.exists_starts` is what loading and resetting leave of any board: a core at the
start of the program, on the given data (`Board.Starts`).

`Board.Computes` ties a board to a site of the program and a configuration of the
semantics. One clock is one step (`Board.Computes.clock`), or it waits for input
that never comes. The run lemmas are inductions on the number of clocks that are
allowed:

* `Board.Computes.seek_of_finishes` peels one step off the rest of the computation
  with each clock;
* `Board.Computes.finishes_of_seek` puts one step in front with each clock.
-/

namespace TapeProcessor

namespace Board

/-- The board runs `p` and is at the site `f` with the configuration `s`. The image is
shorter than code memory, so that the address behind it is no other address. -/
structure Computes (b : Board) (n : ℕ) (p : Program) (f : Site) (s : Config n) : Prop where
  site : b.core.AtSite n p f
  size_lt : p.size < b.core.code.size
  tape : b.core.tape n = s.tape
  pending : b.terminal.pending = s.input
  received : b.terminal.received.toList = s.output
  accepting : b.terminal.accepting = true
  listener : b.terminal.listener = .off

namespace Computes

variable {b : Board} {n : ℕ} {p : Program} {f : Site} {s : Config n}

/-- The signals that the core is given are those of the configuration. -/
theorem signals (h : b.Computes n p f s) : b.drivenCore.link.signals = s.signals := by
  rw [signals_drivenCore, h.accepting, h.pending]
  rfl

/-- A deed of the core reaches the terminal. -/
theorem exchange (h : b.Computes n p f s) (deed : Deed n) :
    let t := b.terminal.exchange deed.sent deed.taken
    t.pending = (s.after deed).input ∧ t.received.toList = (s.after deed).output ∧
      t.accepting = true ∧ t.listener = .off := by
  obtain ⟨tape, sent, taken⟩ := deed
  -- with no listener a byte is received and that is all
  cases sent with
  | none =>
    cases taken <;> simp [Terminal.exchange, Config.after, h.pending, h.received, h.accepting,
      h.listener]
  | some byte =>
    cases taken <;> simp [Terminal.exchange, Terminal.receive, Terminal.hear, Config.after,
      h.pending, h.received, h.accepting, h.listener]

/-- **One clock is one step.** Away from the end, a clock either is the step of the
configuration or waits with it. -/
theorem clock (h : b.Computes n p f s) (h_ne : f ≠ Site.finish) :
    (∃ f' s', f.step? s = some (f', s') ∧ b.clock.2.Computes n p f' s') ∨
      (f.step? s = none ∧ b.clock.2.Computes n p f s) := by
  have h_site : b.drivenCore.AtSite n p f := h.site.withLink _
  have h_obeys := h_site.obeys h_ne
  rw [h.signals, show b.drivenCore.tape n = s.tape from h.tape] at h_obeys
  cases h_turn : f.turn s.signals s.tape with
  | finished => exact absurd ((f.turn_eq_finished_iff _ _).mp h_turn) h_ne
  | waits =>
    rw [h_turn] at h_obeys
    have h_stays : b.drivenCore.Stays n := h_obeys
    refine Or.inr ⟨by rw [Site.step?, h_turn], ?_⟩
    have h_terminal : b.clock.2.terminal = b.terminal := by
      rw [terminal_clock, h_stays.link]
      exact b.terminal.sample_report b.core.link _ (by simp)
    exact ⟨h_site.of_stays h_stays, h_stays.code ▸ h.size_lt, h_stays.tape.trans h.tape,
      by rw [h_terminal, h.pending], by rw [h_terminal, h.received],
      by rw [h_terminal, h.accepting], by rw [h_terminal, h.listener]⟩
  | goes f' deed =>
    rw [h_turn] at h_obeys
    have h_carries : b.drivenCore.Carries n (f'.address p) deed := h_obeys
    refine Or.inl ⟨f', s.after deed, by rw [Site.step?, h_turn], ?_⟩
    -- the terminal accepts, so it sees what the core sent
    have h_terminal : b.clock.2.terminal = b.terminal.exchange deed.sent deed.taken := by
      rw [terminal_clock, h_carries.link]
      exact b.terminal.sample_report b.core.link _ fun _ => h.accepting
    obtain ⟨h_pending, h_received, h_accepting, h_listener⟩ := h.exchange deed
    rw [← h_terminal] at h_pending h_received h_accepting h_listener
    exact ⟨h_site.of_carries (h.site.inside.turn h_turn) h_carries, h_carries.code ▸ h.size_lt,
      h_carries.tape, h_pending, h_received, h_accepting, h_listener⟩

/-- The address behind the image is that of the end only. -/
theorem ip_eq_size_iff (h : b.Computes n p f s) : b.core.ip = p.size ↔ f = Site.finish := by
  constructor
  · intro h_ip
    by_contra h_ne
    have h_lt := h.site.inside.address_lt h_ne
    rw [← h.site.ip_eq h_ne] at h_lt
    omega
  · rintro rfl
    rw [h.site.ip, Site.address_finish]
    exact Nat.mod_eq_of_lt h.size_lt

/-- **What terminates is found.** If the computation has `k` steps left, the run to the
end takes `k` clocks and ends as the computation does. -/
theorem seek_of_finishes (h : b.Computes n p f s) (used : ℕ) {k left : ℕ}
    {t : Config n} (h_rest : f.Finishes s k t) (h_le : k ≤ left) :
    (seek p.size used left b).1.getD (used + left) = used + k ∧
      (seek p.size used left b).2.Computes n p Site.finish t := by
  induction left generalizing used b f s k with
  | zero =>
    -- no clock is allowed, so no step is left
    rcases h_rest.step with ⟨rfl, rfl, rfl⟩ | ⟨f', s', k', -, -, rfl⟩
    · exact ⟨rfl, h⟩
    · omega
  | succ left ih =>
    unfold seek
    rcases h_rest.step with ⟨rfl, rfl, rfl⟩ | ⟨f', s', k', h_step, h_next_rest, rfl⟩
    · rw [if_pos (h.ip_eq_size_iff.mpr rfl)]
      exact ⟨rfl, h⟩
    · have h_ne : f ≠ Site.finish := by
        rintro rfl
        cases h_step
      rw [if_neg (h.ip_eq_size_iff.not.mpr h_ne)]
      -- the clock is this step, and `k'` are left
      rcases h.clock h_ne with ⟨f'', s'', h_clock, h_next⟩ | ⟨h_none, -⟩
      · rw [h_step] at h_clock
        obtain ⟨rfl, rfl⟩ := h_clock
        obtain ⟨h_used, h_end⟩ := ih h_next (used + 1) h_next_rest (by omega)
        refine ⟨?_, h_end⟩
        rw [show used + (left + 1) = used + 1 + left by omega, h_used]
        omega
      · rw [h_none] at h_step
        cases h_step

/-- **What is found terminates.** If the run comes to the end within the clocks it is
allowed, the computation terminates within as many steps. -/
theorem finishes_of_seek (h : b.Computes n p f s) {left used : ℕ}
    (h_ip : (seek p.size used left b).2.core.ip = p.size) :
    ∃ k t, k ≤ left ∧ f.Finishes s k t := by
  induction left generalizing b f s used with
  | zero =>
    obtain rfl := h.ip_eq_size_iff.mp h_ip
    exact ⟨0, s, Nat.le_refl _, Site.finishes_finish_iff.mpr ⟨rfl, rfl⟩⟩
  | succ left ih =>
    by_cases h_ne : f = Site.finish
    · subst h_ne
      exact ⟨0, s, Nat.zero_le _, Site.finishes_finish_iff.mpr ⟨rfl, rfl⟩⟩
    · rw [seek, if_neg (h.ip_eq_size_iff.not.mpr h_ne)] at h_ip
      rcases h.clock h_ne with ⟨f', s', h_step, h_next⟩ | ⟨-, h_next⟩
      · obtain ⟨k, t, h_le, h_rest⟩ := ih h_next h_ip
        exact ⟨k + 1, t, by omega, Site.finishes_of_step h_step h_rest⟩
      -- a clock that waits leaves the computation where it was
      · obtain ⟨k, t, h_le, h_rest⟩ := ih h_next h_ip
        exact ⟨k, t, by omega, h_rest⟩

end Computes

/-- The board `b'` is `b` with the program `p` loaded, and `data`, and with its core
reset. Of what `b` was, only the sizes of its memories and its terminal are left. -/
structure Starts (b b' : Board) (p : Program) (data : Array UInt8) : Prop where
  site : b'.core.AtSite b.core.data.size p (Site.start p)
  code_size : b'.core.code.size = b.core.code.size
  tape : b'.core.tape b.core.data.size = Tape.ofBytes b.core.data.size data
  terminal : b'.terminal = b.terminal

/-- **Loading a text and resetting the core**, from any board. -/
theorem exists_starts {b : Board} {source : String} {data : Array UInt8} {clocks : ℕ}
    (h_load : (b.loadSource source data true).answer = .ok clocks) :
    ∃ p : Program, p.opcodes = Source.operations source.toList ∧
      p.size = (b.loadSource source data true).board.imageSize ∧
      b.Starts (b.loadSource source data true).board.boot.board p data := by
  obtain ⟨image, h_compile, h_loaded⟩ := loadSource_spec h_load
  obtain ⟨p, h_tree, h_fits, rfl, h_capacity⟩ := Program.of_compile h_compile
  -- what the board was before plays no part from here on
  generalize (b.loadSource source data true).board = loaded at h_loaded ⊢
  have h_booted := boot_spec h_loaded.init
  have h_image := h_loaded.imageSize
  rw [Program.size_encode] at h_image
  have h_code_size : loaded.boot.board.core.code.size = b.core.code.size := by
    rw [h_booted.code, h_loaded.code_size]
  have h_data_size : loaded.boot.board.core.data.size = b.core.data.size := by
    rw [h_booted.data, h_loaded.data_size]
  refine ⟨p, h_tree, h_image.symm, ?_, h_code_size, ?_,
    h_booted.terminal.trans h_loaded.terminal⟩
  · have h_mode : loaded.boot.board.core.InRunMode b.core.data.size := by
      refine ⟨h_booted.init, h_booted.boot, h_data_size, ?_⟩
      rw [h_booted.dp]
      exact b.core.data.size_pos
    refine .start h_mode h_fits ?_ ?_ h_booted.ip
    · rw [h_booted.code]
      exact h_loaded.holds.code
    · rw [h_code_size]
      exact_mod_cast h_capacity
  · refine Tape.ext (funext fun i => ?_) ?_
    · change loaded.boot.board.core.data.read i.val = data.getD i.val 0
      rw [h_booted.data, h_loaded.holds.data]
    · change ((loaded.boot.board.core.dp : ℕ) : ZMod b.core.data.size) = 0
      rw [h_booted.dp, Nat.cast_zero]

/-- Loading a text and resetting the core starts the computation of its tree. -/
theorem exists_computes {b : Board} {source : String} {data : Array UInt8} {clocks : ℕ}
    (h_listener : b.terminal.listener = .off) (h_received : b.terminal.received = #[])
    (h_accepting : b.terminal.accepting = true)
    (h_load : (b.loadSource source data true).answer = .ok clocks)
    (h_length : (b.loadSource source data true).board.imageSize < b.core.code.size) :
    ∃ p : Program, p.opcodes = Source.operations source.toList ∧
      p.size = (b.loadSource source data true).board.imageSize ∧
      (b.loadSource source data true).board.boot.board.Computes b.core.data.size p (Site.start p)
        ⟨Tape.ofBytes b.core.data.size data, b.terminal.pending, []⟩ := by
  obtain ⟨p, h_tree, h_size, h_site, h_code_size, h_tape, h_terminal⟩ := exists_starts h_load
  refine ⟨p, h_tree, h_size, h_site, ?_, h_tape, ?_, ?_, ?_, ?_⟩
  · rw [h_code_size, h_size]
    exact h_length
  -- loading and booting left the terminal alone
  · rw [h_terminal]
  · rw [h_terminal, h_received]
  · rw [h_terminal, h_accepting]
  · rw [h_terminal, h_listener]

/-- A run to an address that code memory has is a search for it. -/
theorem runTo_natCast {b : Board} (h_booted : b.booted = true) {address : ℕ}
    (h_lt : address < b.core.code.size) (limit : ℕ) :
    b.runTo address limit = .success (((seek address 0 limit b).1.getD limit : ℕ) : Int)
      (seek address 0 limit b).2 [] := by
  rw [runTo_eq h_booted, b.core.code.wrap_natCast_of_lt h_lt, Int.toNat_natCast]
  cases (seek address 0 limit b).1 <;> rfl

/-- **The whole chain is correct.** On a board in any state that has no listener, holds
no output and accepts output, a text is loaded whose image does not fill code memory,
and the core is reset. `p` is the tree of the text; it is the only one with these
operations (`Program.opcodes_injective`). Then for every limit the run to the address
behind the image arrives there if and only if `p` terminates within `limit` steps on
the loaded data and the queued input. If it does, the answer is the number of steps,
and what the host collects (as bytes and as text), the data memory, the data pointer and
the input that is left are those at the end of `p`. -/
theorem runTo_correct {b : Board} {source : String} {data : Array UInt8} {clocks : ℕ}
    (h_listener : b.terminal.listener = .off) (h_received : b.terminal.received = #[])
    (h_accepting : b.terminal.accepting = true)
    (h_load : (b.loadSource source data true).answer = .ok clocks)
    (h_length : (b.loadSource source data true).board.imageSize < b.core.code.size) :
    ∃ p : Program, p.opcodes = Source.operations source.toList ∧ ∀ limit : ℕ,
      let n := b.core.data.size
      let start : Config n := ⟨Tape.ofBytes n data, b.terminal.pending, []⟩
      let loaded := (b.loadSource source data true).board
      let outcome := loaded.boot.board.runTo loaded.imageSize limit
      (outcome.board.core.ip = loaded.imageSize ↔ ∃ k t, k ≤ limit ∧ p.Runs start k t) ∧
      ∀ k t, k ≤ limit → p.Runs start k t →
        outcome.answer = .ok (k : Int) ∧
        outcome.board.terminal.drain.1.toList = t.output ∧
        Latin1.decode outcome.board.terminal.drain.1
          = String.ofList (t.output.map Latin1.charOf) ∧
        outcome.board.core.data.size = n ∧
        (∀ i < n, outcome.board.core.data.read i = t.tape.cells i) ∧
        outcome.board.core.dp = t.tape.head.val ∧
        outcome.board.terminal.pending = t.input := by
  obtain ⟨p, h_tree, h_size, h_start⟩ :=
    exists_computes h_listener h_received h_accepting h_load h_length
  refine ⟨p, h_tree, fun limit => ?_⟩
  intro n start loaded outcome
  have h_lt : loaded.imageSize < loaded.boot.board.core.code.size := by
    rw [← h_size]
    exact h_start.size_lt
  have h_outcome : outcome = _ := runTo_natCast (b := loaded.boot.board) rfl h_lt limit
  rw [← h_size] at h_outcome ⊢
  have h_found : ∀ k t, k ≤ limit → p.Runs start k t → outcome.answer = .ok (k : Int) ∧
      outcome.board.Computes n p Site.finish t := by
    intro k t h_le h_run
    obtain ⟨h_used, h_end⟩ := h_start.seek_of_finishes 0
      (Site.finishes_start_iff.mpr h_run) h_le
    rw [Nat.zero_add, Nat.zero_add] at h_used
    rw [h_outcome]
    exact ⟨congrArg (fun m : ℕ => Except.ok (m : Int)) h_used, h_end⟩
  refine ⟨⟨fun h_ip => ?_, ?_⟩, fun k t h_le h_run => ?_⟩
  -- from the board to the semantics
  · rw [h_outcome] at h_ip
    obtain ⟨k, t, h_le, h_rest⟩ := h_start.finishes_of_seek h_ip
    exact ⟨k, t, h_le, Site.finishes_start_iff.mp h_rest⟩
  -- and from the semantics to the board
  · rintro ⟨k, t, h_le, h_run⟩
    exact (h_found k t h_le h_run).2.ip_eq_size_iff.mpr rfl
  · obtain ⟨h_answer, h_end⟩ := h_found k t h_le h_run
    have h_tape := h_end.tape
    refine ⟨h_answer, h_end.received, ?_, h_end.site.mode.size, fun i h_i => ?_, ?_,
      h_end.pending⟩
    · rw [← h_end.received]
      rfl
    · rw [← h_tape]
      exact congrArg outcome.board.core.data.read (ZMod.val_natCast_of_lt h_i).symm
    · rw [← h_tape]
      exact (Core.head_val h_end.site.mode.dp_lt).symm

/-- A board of sixteen words and two cells, with a two as its input. -/
def smallBoard : Board where
  core := .new ⟨⟨4, Nat.succ_pos 3⟩, ⟨1, Nat.zero_lt_one⟩⟩
  terminal := { Terminal.new with pending := [2] }
  imageSize := 0
  booted := false

/-- Counting down from the input takes ten steps. -/
theorem runTo_correct_countdown :
    (smallBoard.loadSource ",[.-]" #[3] true).answer = .ok 9 ∧
      (smallBoard.loadSource ",[.-]" #[3] true).board.imageSize < smallBoard.core.code.size ∧
      ∃ (p : Program) (t : Config smallBoard.core.data.size),
        p.opcodes = Source.operations ",[.-]".toList ∧
        p.Runs ⟨Tape.ofBytes _ #[3], [2], []⟩ 10 t ∧
        t.output = [2, 1] ∧ t.input = [] := by
  have h_load : (smallBoard.loadSource ",[.-]" #[3] true).answer = .ok 9 := by decide +kernel
  have h_length : (smallBoard.loadSource ",[.-]" #[3] true).board.imageSize
      < smallBoard.core.code.size := by decide +kernel
  obtain ⟨p, h_tree, h_run⟩ := runTo_correct rfl rfl rfl h_load h_length
  obtain ⟨h_iff, h_found⟩ := h_run 12
  obtain ⟨k, t, h_le, h_steps⟩ := h_iff.mp (by decide +kernel)
  obtain ⟨h_answer, h_bytes, -, -, -, -, h_input⟩ := h_found k t h_le h_steps
  -- what the board does is computed, and the theorem carries it over to the semantics
  have h_ten : ((smallBoard.loadSource ",[.-]" #[3] true).board.boot.board.runTo
      (smallBoard.loadSource ",[.-]" #[3] true).board.imageSize (12 : ℕ)).answer = .ok 10 := by
    decide +kernel
  rw [h_ten] at h_answer
  obtain rfl : k = 10 := by exact_mod_cast (Except.ok.inj h_answer).symm
  refine ⟨h_load, h_length, p, t, h_tree, h_steps, ?_, ?_⟩
  · rw [← h_bytes]
    decide +kernel
  · rw [← h_input]
    decide +kernel

end Board

end TapeProcessor
