import TapeProcessor.Proofs.Board.Correctness
import TapeProcessor.Proofs.Program.Acceptance
import TapeProcessor.Proofs.Semantics.Passes
import TapeProcessor.Proofs.Session.Move

/-!
# A program that copies texts

The program `,[.,]` reads a byte, and as long as the byte is not zero it writes it and
reads the next one. `Board.copies_texts` says what a host sees of it: a text that is sent,
with a zero behind it, comes back, and each of its characters costs four clocks.

What happens on the board is already known to be what the structured semantics says
(`Board.Computes.seek_of_finishes`), so the loop is followed there. `Program.runs_copyLoop`
is the induction on the bytes that are still to come: the cell holds the one read last,
and a round writes it and reads the next. What is left is the way of a character through
the channels, which carry bytes (`Latin1.charOf_byteOf`).
-/

namespace TapeProcessor

/-! ### Characters that are sent and come back -/

namespace Latin1

/-- The character that comes back for one that was sent. -/
def shown (c : Char) : Char := if c.toNat ≤ 255 then c else '?'

/-- What a host sees of a character that it sent. -/
theorem charOf_byteOf (c : Char) : charOf (byteOf c) = shown c := by
  rw [byteOf, shown]
  -- a question mark stands for what has no byte
  by_cases h : c.toNat < 256
  · rw [if_pos h, if_pos (Nat.le_of_lt_succ h), charOf, UInt8.toNat_ofNat', Nat.mod_eq_of_lt h,
      Char.ofNat_toNat]
  · rw [if_neg h, if_neg (by omega)]
    rfl

/-- Characters that have a byte come back. -/
theorem map_shown {text : List Char} (h : ∀ c ∈ text, c.toNat ≤ 255) : text.map shown = text :=
  (List.map_congr_left fun c h_c => if_pos (h c h_c)).trans (List.map_id text)

theorem length_encode (text : String) : (encode text).length = text.length := by
  rw [encode, List.length_map, String.length_toList]

/-- Only the character zero is sent as a zero. -/
theorem byteOf_ne_zero {c : Char} (h : c ≠ '\x00') : byteOf c ≠ 0 := by
  intro h_zero
  -- a zero would come back as the character zero
  have h_back := charOf_byteOf c
  rw [h_zero, shown] at h_back
  split at h_back
  · exact h h_back.symm
  · cases h_back

end Latin1

/-! ### The loop -/

section Steps

variable {n : ℕ}

theorem Config.act_put (s : Config n) :
    s.act .put = some { s with output := s.output ++ [s.tape.cell] } := by
  simp [act, Tape.act, signals, after]

theorem Config.act_get (t : Tape n) (byte : UInt8) (input output : List UInt8) :
    (⟨t, byte :: input, output⟩ : Config n).act .get = some ⟨t.set byte, input, output⟩ := by
  simp [act, Tape.act, signals, after]

end Steps

namespace Program

/-- Writes the cell and reads the next byte until that is zero. -/
def copyLoop : Program := loop (plain .put (plain .get done)) done

/-- The program `,[.,]`. -/
def copy : Program := plain .get copyLoop

variable {n : ℕ} {row : List UInt8}

/-- **The bytes to come are copied.** The cell holds the first byte of a row with a zero
behind it, and the others are waiting. A round takes four steps, and the last test one. -/
theorem runs_copyLoop (t : Tape n) (h_row : ∀ byte ∈ row, byte ≠ 0) (output : List UInt8)
    {byte : UInt8} {input : List UInt8} (h_input : row ++ [0] = byte :: input) :
    copyLoop.Runs ⟨t.set byte, input, output⟩ (4 * row.length + 1)
      ⟨t.set 0, [], output ++ row⟩ := by
  induction row generalizing output byte input with
  | nil =>
    obtain ⟨rfl, rfl⟩ := List.cons.inj h_input
    rw [List.append_nil]
    exact .skip (t.cell_set 0) (.done _)
  | cons first row ih =>
    -- the byte read last is the first of the row, and another one waits behind it
    obtain ⟨rfl, rfl⟩ := List.cons.inj h_input
    obtain ⟨next, rest, h_next⟩ : ∃ next rest, row ++ [0] = next :: rest :=
      List.exists_cons_of_ne_nil (by simp)
    have h_first : (t.set first).cell ≠ 0 := by
      rw [Tape.cell_set]
      exact h_row first List.mem_cons_self
    -- the round writes the byte and replaces it by the next one
    have h_round : (plain .put (plain .get done)).Runs ⟨t.set first, row ++ [0], output⟩ 2
        ⟨t.set next, rest, output ++ [first]⟩ := by
      refine .plain (Config.act_put _) (.plain ?_ (.done _))
      rw [Tape.cell_set, h_next, Config.act_get, Tape.set_set]
    have h_rest := ih (fun b h_b => h_row b (List.mem_cons_of_mem first h_b)) (output ++ [first])
      h_next
    rw [List.append_assoc, List.singleton_append] at h_rest
    rw [List.length_cons, show 4 * (row.length + 1) + 1 = 1 + 2 + 1 + (4 * row.length + 1) by omega]
    exact .round h_first h_round h_rest

/-- **A row of bytes is copied**, up to a zero. -/
theorem runs_copy (t : Tape n) (h_row : ∀ byte ∈ row, byte ≠ 0) :
    copy.Runs ⟨t, row ++ [0], []⟩ (4 * row.length + 2) ⟨t.set 0, [], row⟩ := by
  obtain ⟨first, rest, h_first⟩ : ∃ first rest, row ++ [0] = first :: rest :=
    List.exists_cons_of_ne_nil (by simp)
  rw [h_first]
  exact .plain (Config.act_get t first rest []) (runs_copyLoop t h_row [] h_first)

/-- The tree of the program, for any code memory with room for its seven words. -/
theorem compile_copy {capacity : ℤ} (h : 7 ≤ capacity) :
    compile ",[.,]" capacity = .ok copy.encode :=
  compile_eq_ok_iff.mpr ⟨copy, rfl, ⟨by decide, trivial, trivial⟩, rfl, h⟩

end Program

namespace Board

variable {b : Board}

/-! ### The board -/

/-- Bytes that the host sends wait behind those that wait already. -/
theorem Computes.inject {n : ℕ} {p : Program} {f : Site} {s : Config n} (h : b.Computes n p f s)
    (bytes : List UInt8) :
    (b.perform (.terminal (.inject bytes))).board.Computes n p f
      { s with input := s.input ++ bytes } where
  site := h.site
  size_lt := h.size_lt
  tape := h.tape
  pending := by rw [← h.pending]; rfl
  received := h.received
  accepting := h.accepting
  listener := h.listener

/-- **A run to the end** of a program that terminates takes as many clocks as there are
steps, and ends as the program does. -/
theorem Computes.runTo_of_runs {n : ℕ} {p : Program} {s t : Config n} {k : ℕ}
    (h : b.Computes n p (Site.start p) s) (h_booted : b.booted = true) (h_run : p.Runs s k t)
    {limit : ℤ} (h_limit : k ≤ limit) :
    (b.runTo p.size limit).answer = .ok (k : ℤ) ∧
      (b.runTo p.size limit).board.Computes n p Site.finish t := by
  obtain ⟨m, rfl⟩ := Int.eq_ofNat_of_zero_le (show 0 ≤ limit by omega)
  -- the board follows the run to its end, and the end is the address it looks for
  obtain ⟨h_used, h_end⟩ := h.seek_of_finishes 0 (Site.finishes_start_iff.mpr h_run)
    (show k ≤ m by omega)
  rw [Nat.zero_add, Nat.zero_add] at h_used
  rw [runTo_natCast h_booted h.size_lt]
  exact ⟨congrArg (fun clocks : ℕ => Except.ok (clocks : ℤ)) h_used, h_end⟩

/-- There is room for the program, and its image is loaded. -/
theorem loadSource_copy (h_room : 8 ≤ b.core.code.size) :
    (b.loadSource ",[.,]" #[] true).answer = .ok (b.core.data.size + 7) ∧
      (b.loadSource ",[.,]" #[] true).board.imageSize = 7 := by
  have h_image : Program.copy.encode.size ≤ b.core.code.size := by
    rw [Program.size_encode]
    exact Nat.le_of_succ_le h_room
  have h_data : (#[] : Array UInt8).size ≤ b.core.data.size := Nat.zero_le _
  obtain ⟨h_answer, h_loaded⟩ := b.load_spec h_image h_data
  rw [loadSource, Program.compile_copy (by omega)]
  exact ⟨h_answer, h_loaded.imageSize⟩

/-- With the program loaded and the core reset, the board starts on what the host sends. -/
theorem computes_copy (h_room : 8 ≤ b.core.code.size) (h_listener : b.terminal.listener = .off)
    (h_received : b.terminal.received = #[]) (h_pending : b.terminal.pending = [])
    (h_accepting : b.terminal.accepting = true) (bytes : List UInt8) :
    (b.session [.loadSource ",[.,]" #[] true, .boot, .terminal (.inject bytes),
      .terminal (.inject [0])]).Computes b.core.data.size Program.copy (Site.start Program.copy)
        ⟨Tape.ofBytes b.core.data.size #[], bytes ++ [0], []⟩ := by
  obtain ⟨h_load, h_size⟩ := loadSource_copy h_room
  obtain ⟨p, h_tree, -, h_start⟩ :=
    exists_computes h_listener h_received h_accepting h_load (by omega)
  -- only one tree has these operations
  obtain rfl : p = Program.copy := Program.opcodes_injective h_tree
  rw [h_pending] at h_start
  exact (h_start.inject bytes).inject [0]

/-- **Texts are copied.** The program `,[.,]` is loaded on a board in any state whose
terminal is empty, accepts output and has no listener, and whose code memory has room for it;
the core is reset, and a text without the character zero is sent, and then a zero. A run to
the end of the program comes there after four clocks for each character and two more. Then
all input was read, the current cell is zero, and the host collects the text with a question
mark for each character that has no byte. -/
theorem copies_texts (h_room : 8 ≤ b.core.code.size) (h_listener : b.terminal.listener = .off)
    (h_received : b.terminal.received = #[]) (h_pending : b.terminal.pending = [])
    (h_accepting : b.terminal.accepting = true) (text : String)
    (h_text : ∀ c ∈ text.toList, c ≠ '\x00') {limit : ℤ} (h_limit : 4 * text.length + 2 ≤ limit) :
    let fed := b.session [.loadSource ",[.,]" #[] true, .boot,
      .terminal (.inject (Latin1.encode text)), .terminal (.inject [0])]
    let last := (fed.runTo 7 limit).board
    (b.loadSource ",[.,]" #[] true).answer = .ok (b.core.data.size + 7) ∧
      (fed.runTo 7 limit).answer = .ok (4 * text.length + 2) ∧
      last.core.ip = 7 ∧ last.terminal.pending = [] ∧ last.core.cell = 0 ∧
      Latin1.decode last.terminal.drain.1 = String.ofList (text.toList.map Latin1.shown) ∧
      ((∀ c ∈ text.toList, c.toNat ≤ 255) → Latin1.decode last.terminal.drain.1 = text) := by
  intro fed last
  have h_start : fed.Computes _ _ _ _ :=
    computes_copy h_room h_listener h_received h_pending h_accepting (Latin1.encode text)
  -- no character of the text is sent as the zero that ends it
  have h_bytes : ∀ byte ∈ Latin1.encode text, byte ≠ 0 := by
    intro byte h_byte
    obtain ⟨c, h_c, rfl⟩ := List.mem_map.mp h_byte
    exact Latin1.byteOf_ne_zero (h_text c h_c)
  have h_run := Program.runs_copy (Tape.ofBytes b.core.data.size #[]) h_bytes
  rw [Latin1.length_encode] at h_run
  have h_clocks : ((4 * text.length + 2 : ℕ) : ℤ) ≤ limit := by omega
  obtain ⟨h_answer, h_end⟩ := h_start.runTo_of_runs rfl h_run h_clocks
  have h_last : last.Computes _ _ _ _ := h_end
  -- what is collected is the output of the run, a character for each byte
  have h_shown : Latin1.decode last.terminal.drain.1
      = String.ofList (text.toList.map Latin1.shown) := by
    change String.ofList (last.terminal.received.toList.map Latin1.charOf) = _
    rw [h_last.received, Latin1.encode, List.map_map]
    simp only [Function.comp_def, Latin1.charOf_byteOf]
  refine ⟨(loadSource_copy h_room).1, ?_, h_last.ip_eq_size_iff.mpr rfl, h_last.pending, ?_,
    h_shown, fun h_latin => ?_⟩
  · exact h_answer.trans (congrArg Except.ok (by push_cast; rfl))
  · rw [← Core.cell_tape h_last.site.mode.dp_lt, h_last.tape, Tape.cell_set]
  · rw [h_shown, Latin1.map_shown h_latin, String.ofList_toList]

/-- A board with eight words, in some state, whose terminal is empty. -/
def wornBoard : Board where
  core :=
    { Core.new ⟨.succ 2, .succ 0⟩ with
      data := (Memory.zeros (.succ 0)).store 0 [5, 6]
      ip := 6
      dp := 1 }
  terminal := .new
  imageSize := 3
  booted := false

/-- Three characters come back in fourteen clocks, the last of them as a question mark. -/
theorem copies_texts_replaced :
    let fed := wornBoard.session [.loadSource ",[.,]" #[] true, .boot,
      .terminal (.inject (Latin1.encode "hé→")), .terminal (.inject [0])]
    let last := (fed.runTo 7 14).board
    8 ≤ wornBoard.core.code.size ∧ wornBoard.terminal = .new ∧
      (∀ c ∈ "hé→".toList, c ≠ '\x00') ∧
      (fed.runTo 7 14).answer = .ok 14 ∧ last.core.ip = 7 ∧ last.core.cell = 0 ∧
      Latin1.decode last.terminal.drain.1 = "hé?" := by
  intro fed last
  have h_room : 8 ≤ wornBoard.core.code.size := by decide
  have h_text : ∀ c ∈ "hé→".toList, c ≠ '\x00' := by simp
  have h_length : "hé→".length = 3 := rfl
  have h_clocks : (4 * "hé→".length + 2 : ℤ) ≤ 14 := by omega
  obtain ⟨-, h_answer, h_ip, -, h_cell, h_shown, -⟩ :=
    copies_texts h_room rfl rfl rfl rfl "hé→" h_text h_clocks
  exact ⟨h_room, rfl, h_text, h_answer, h_ip, h_cell, h_shown.trans (by decide)⟩

end Board

end TapeProcessor
