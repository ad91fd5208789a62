import TapeProcessor.Proofs.Board.Loading
import TapeProcessor.Proofs.Core.Instruction

/-!
# What a load writes, and what it leaves

A load fills the memories through the buses, a word on each clock. `Board.load_writes`
says what has become of every part of the board afterwards: the words that were asked for
are in the memories, each other word is as before or cleared, and all else is either put
into a fixed state or left as it was. The board before the load is arbitrary: its buses
may hold requests, its control lines may be high, and its terminal may have bytes to send.

The contents of the memories come from `Board.filledFrom`. The registers and counters are
followed through the clocks as a `Core.Standing`: what a held core does to it on one clock
depends on nothing else (`Core.standing_step_of_held`), any number of such clocks is
`Standing.heldFor`, and so is a load (`Board.standing_load`). A held core resets its
pointers on each clock on which the reset line is high, so a load under reset moves them,
unless it takes no clock.
-/

namespace TapeProcessor

namespace Core

/-! ### Registers and counters of a held core -/

/-- The registers and counters of a core, with what bounds and resets the pointers. -/
@[ext] structure Standing where
  codeSize : Nat
  dataSize : Nat
  boot : Bool
  ip : Nat
  dp : Nat
  cycles : Nat
  stalls : Nat

/-- The registers and counters of a core. -/
def standing (c : Core) : Standing where
  codeSize := c.code.size
  dataSize := c.data.size
  boot := c.boot
  ip := c.ip
  dp := c.dp
  cycles := c.cycles
  stalls := c.stalls

namespace Standing

/-- The registers and counters after a number of clocks on which the core is held. The
reset line puts the pointers to zero; without it they are wrapped. -/
def heldFor (clocks : Nat) (s : Standing) : Standing :=
  if clocks = 0 then s
  else
    { s with
      ip := if s.boot then 0 else s.ip % s.codeSize
      dp := if s.boot then 0 else s.dp % s.dataSize
      cycles := s.cycles + clocks }

variable (s : Standing)

@[simp] theorem heldFor_zero : s.heldFor 0 = s := rfl

/-- The first of some clocks, and then the others. -/
theorem heldFor_succ (clocks : Nat) : (s.heldFor 1).heldFor clocks = s.heldFor (clocks + 1) := by
  cases clocks with
  | zero => rfl
  | succ clocks =>
    -- the pointers are reset or wrapped on the first clock, and stay there on the others
    cases h_boot : s.boot <;>
      simp [heldFor, h_boot, Nat.add_assoc, Nat.add_comm 1]

/-- Clocks on which the core is held add up. -/
theorem heldFor_add (m n : Nat) : (s.heldFor m).heldFor n = s.heldFor (m + n) := by
  induction m generalizing s with
  | zero => rw [heldFor_zero, Nat.zero_add]
  | succ m ih => rw [← heldFor_succ, ih, heldFor_succ, Nat.succ_add]

/-- Each of the clocks is counted. -/
theorem cycles_heldFor (clocks : Nat) : (s.heldFor clocks).cycles = s.cycles + clocks := by
  unfold heldFor
  split
  next h => rw [h, Nat.add_zero]
  next => rfl

/-- The sizes, the reset line and the count of stalls do not change on such clocks. -/
theorem fixed_heldFor (clocks : Nat) :
    (s.heldFor clocks).codeSize = s.codeSize ∧ (s.heldFor clocks).dataSize = s.dataSize ∧
      (s.heldFor clocks).boot = s.boot ∧ (s.heldFor clocks).stalls = s.stalls := by
  unfold heldFor
  split <;> exact ⟨rfl, rfl, rfl, rfl⟩

/-- Without a reset, pointers in range stay where they are. -/
theorem pointers_heldFor_of_low {s : Standing} (h_boot : s.boot = false) (h_ip : s.ip < s.codeSize)
    (h_dp : s.dp < s.dataSize) (clocks : Nat) :
    (s.heldFor clocks).ip = s.ip ∧ (s.heldFor clocks).dp = s.dp := by
  unfold heldFor
  split
  · exact ⟨rfl, rfl⟩
  · simp [h_boot, Nat.mod_eq_of_lt h_ip, Nat.mod_eq_of_lt h_dp]

/-- Under reset the pointers are zero after the first clock. -/
theorem pointers_heldFor_of_high {s : Standing} (h_boot : s.boot = true) {clocks : Nat}
    (h_clocks : 0 < clocks) : (s.heldFor clocks).ip = 0 ∧ (s.heldFor clocks).dp = 0 := by
  rw [heldFor, if_neg (by omega)]
  simp [h_boot]

end Standing

/-- **A held clock** does this to the registers and counters, whatever is on the buses. -/
theorem standing_step_of_held {c : Core} (h : c.Held) :
    c.step.2.standing = c.standing.heldFor 1 := by
  -- each pointer is zero or wrapped to its own memory
  have h_pointer : ∀ (m : Memory) (pointer : Nat),
      m.wrap (if c.boot then 0 else pointer) = if c.boot then 0 else pointer % m.size := by
    intro m pointer
    split
    · exact m.wrap_natCast_of_lt m.size_pos
    · exact m.wrap_natCast pointer
  rw [step_snd, h.plan_eq]
  refine Standing.ext ?_ ?_ rfl ?_ ?_ rfl rfl
  · exact c.code.size_apply _
  · exact c.data.size_apply _
  · exact h_pointer c.code c.ip
  · exact h_pointer c.data c.dp

end Core

namespace Board

variable {b : Board}

/-! ### A feed -/

/-- A feed does to the registers and counters what as many clocks do. -/
theorem standing_feed (h : b.core.init = true) (bank : Bank) (address : Nat) (words : List UInt8) :
    (feed bank address words b).core.standing = b.core.standing.heldFor words.length := by
  induction words generalizing b address with
  | nil => rfl
  | cons word rest ih =>
    have h_init : (b.offering bank address word).core.init = true := by
      cases bank <;> exact h
    have h_standing : (b.offering bank address word).drivenCore.standing = b.core.standing := by
      cases bank <;> rfl
    have h_held : (b.offering bank address word).drivenCore.Held := Or.inl h_init
    -- what is on the buses has no part in the clock
    have h_first : (b.offering bank address word).clock.2.core.standing
        = b.core.standing.heldFor 1 := by
      rw [core_clock, Core.standing_step_of_held h_held, h_standing]
    have h_next : (b.offering bank address word).clock.2.core.init = true := h_init
    rw [List.length_cons, ← Core.Standing.heldFor_succ, ← h_first]
    exact ih h_next (address + 1)

/-- What is offered for the other memory is left on its bus. -/
theorem bus_other_feed (b : Board) (bank : Bank) (address : Nat) (words : List UInt8) :
    (feed bank address words b).core.bus bank.other = b.core.bus bank.other := by
  induction words generalizing b address with
  | nil => rfl
  | cons word rest ih =>
    -- a word is offered on the bus of the bank that is fed
    have h_first : (b.offering bank address word).clock.2.core.bus bank.other
        = b.core.bus bank.other := by
      cases bank <;> rfl
    exact (ih _ (address + 1)).trans h_first

/-! ### A load -/

/-- The clocks of both feeds of a load. -/
theorem standing_filled (b : Board) (image bytes : List UInt8) :
    (feed .code 0 image (feed .data 0 bytes b.openForLoad).withdrawData).core.standing
      = b.core.standing.heldFor (bytes.length + image.length) := by
  have h_opened : b.openForLoad.Feeding .data := ⟨rfl, rfl⟩
  have h_init : (feed .data 0 bytes b.openForLoad).withdrawData.core.init = true :=
    (h_opened.feed 0 bytes).1.init
  calc (feed .code 0 image (feed .data 0 bytes b.openForLoad).withdrawData).core.standing
      = (feed .data 0 bytes b.openForLoad).core.standing.heldFor image.length :=
        standing_feed h_init .code 0 image
    _ = (b.core.standing.heldFor bytes.length).heldFor image.length :=
        congrArg _ (standing_feed (b := b.openForLoad) rfl .data 0 bytes)
    _ = b.core.standing.heldFor (bytes.length + image.length) :=
        b.core.standing.heldFor_add bytes.length image.length

section Load

variable (b : Board) {image data : Array UInt8} (zeroData : Bool)
  (h_image : image.size ≤ b.core.code.size) (h_data : data.size ≤ b.core.data.size)

include h_image h_data

/-- **The registers and counters** after a load: those of a core that was held for its
clocks. -/
theorem standing_load :
    (b.load image data zeroData).board.core.standing
      = b.core.standing.heldFor
        (image.size + if zeroData then b.core.data.size else data.size) := by
  rw [b.load_of_fits h_image h_data rfl, ← length_initialData h_data zeroData,
    Nat.add_comm image.size]
  exact b.standing_filled image.toList _

/-- Code memory after a load. -/
theorem code_load (a : Nat) :
    (b.load image data zeroData).board.core.code.read a
      = image.getD a (b.core.code.read a) := by
  rw [b.load_of_fits h_image h_data rfl]
  refine (congrArg (Memory.read · a) (b.filledFrom image.toList _).code).trans ?_
  rw [Memory.read_store_zero _ (by simpa using h_image), Array.getElem?_toList,
    Array.getD_eq_getD_getElem?]

/-- Data memory after a load. -/
theorem data_load (a : Nat) :
    (b.load image data zeroData).board.core.data.read a
      = data.getD a (if zeroData then 0 else b.core.data.read a) := by
  rw [b.load_of_fits h_image h_data rfl, ← read_store_initialData b.core.data h_data]
  exact congrArg (Memory.read · a) (b.filledFrom image.toList _).data

/-- No byte passes during a load. -/
theorem terminal_load : (b.load image data zeroData).board.terminal = b.terminal := by
  rw [b.load_of_fits h_image h_data rfl]
  exact (b.filledFrom image.toList _).terminal

/-- The control line, the buses and the marks of the board after a load do not depend on
what they were before. -/
theorem closed_load :
    let b' := (b.load image data zeroData).board
    b'.core.init = false ∧ b'.core.codeBus = .idle ∧ b'.core.dataBus = .idle ∧
      b'.imageSize = image.size ∧ b'.booted = false := by
  rw [b.load_of_fits h_image h_data rfl]
  exact ⟨rfl, rfl, bus_other_feed _ .code 0 image.toList, rfl, rfl⟩

end Load

/-- **What a load leaves of a board**, part by part: the memories, the registers and
control lines, the buses, the terminal and the counters. -/
structure Written (b b' : Board) (image data : Array UInt8) (zeroData : Bool) (clocks : Nat) :
    Prop where
  code_size : b'.core.code.size = b.core.code.size
  words : ∀ a (h : a < image.size), b'.core.code.read a = image[a]
  behind_words : ∀ a, image.size ≤ a → b'.core.code.read a = b.core.code.read a
  data_size : b'.core.data.size = b.core.data.size
  cells : ∀ a (h : a < data.size), b'.core.data.read a = data[a]
  behind_cells : ∀ a, data.size ≤ a →
    b'.core.data.read a = if zeroData then 0 else b.core.data.read a
  boot : b'.core.boot = b.core.boot
  /-- With the reset line low, pointers that are addresses of their memories stay. -/
  pointers_kept : b.core.boot = false → b.core.ip < b.core.code.size →
    b.core.dp < b.core.data.size → b'.core.ip = b.core.ip ∧ b'.core.dp = b.core.dp
  pointers_reset : b.core.boot = true → 0 < clocks → b'.core.ip = 0 ∧ b'.core.dp = 0
  pointers_untouched : clocks = 0 → b'.core.ip = b.core.ip ∧ b'.core.dp = b.core.dp
  init : b'.core.init = false
  codeBus : b'.core.codeBus = .idle
  dataBus : b'.core.dataBus = .idle
  imageSize : b'.imageSize = image.size
  booted : b'.booted = false
  terminal : b'.terminal = b.terminal
  stalls : b'.core.stalls = b.core.stalls
  cycles : b'.core.cycles = b.core.cycles + clocks

/-- **A load writes exactly what it should.** From any board, an image and data that fit are
carried out, on a clock for each word of the image and each cell that is written. The image
and the data are at the start of the memories then; behind the image nothing changes, and
behind the data the cells are zero or as they were, as asked for. Everything else is as
`Written` says. -/
theorem load_writes (b : Board) {image data : Array UInt8} (zeroData : Bool)
    (h_image : image.size ≤ b.core.code.size) (h_data : data.size ≤ b.core.data.size) :
    let clocks := image.size + if zeroData then b.core.data.size else data.size
    (b.load image data zeroData).answer = .ok clocks ∧
      b.Written (b.load image data zeroData).board image data zeroData clocks := by
  intro clocks
  have h_answer : (b.load image data zeroData).answer = .ok clocks := by
    rw [b.load_of_fits h_image h_data rfl, length_initialData h_data, Nat.add_comm]
    rfl
  have h_code := b.code_load zeroData h_image h_data
  have h_cell := b.data_load zeroData h_image h_data
  obtain ⟨h_init, h_codeBus, h_dataBus, h_imageSize, h_booted⟩ :=
    b.closed_load zeroData h_image h_data
  have h_terminal := b.terminal_load zeroData h_image h_data
  have h_standing : (b.load image data zeroData).board.core.standing
      = b.core.standing.heldFor clocks := b.standing_load zeroData h_image h_data
  -- all that is known of the new board is in the context now
  generalize (b.load image data zeroData).board = b' at *
  -- from here on only the standing of the core before and after the load matters
  obtain ⟨h_codeSize, h_dataSize, h_boot, h_stalls⟩ := b.core.standing.fixed_heldFor clocks
  have h_cycles := b.core.standing.cycles_heldFor clocks
  rw [← h_standing] at h_codeSize h_dataSize h_boot h_stalls h_cycles
  refine ⟨h_answer,
    { code_size := h_codeSize
      words := fun a h_a => (h_code a).trans (by simp [h_a])
      behind_words := fun a h_a => (h_code a).trans (by simp [h_a])
      data_size := h_dataSize
      cells := fun a h_a => (h_cell a).trans (by simp [h_a])
      behind_cells := fun a h_a => (h_cell a).trans (by simp [h_a])
      boot := h_boot
      pointers_kept := fun h_low h_ip h_dp => ?_
      pointers_reset := fun h_high h_pos => ?_
      pointers_untouched := fun h_none => ?_
      init := h_init
      codeBus := h_codeBus
      dataBus := h_dataBus
      imageSize := h_imageSize
      booted := h_booted
      terminal := h_terminal
      stalls := h_stalls
      cycles := h_cycles }⟩
  -- the reset line tells where the pointers are
  · have h_kept :=
      Core.Standing.pointers_heldFor_of_low (s := b.core.standing) h_low h_ip h_dp clocks
    rwa [← h_standing] at h_kept
  · have h_reset := Core.Standing.pointers_heldFor_of_high (s := b.core.standing) h_high h_pos
    rwa [← h_standing] at h_reset
  · rw [h_none, Core.Standing.heldFor_zero] at h_standing
    exact ⟨congrArg Core.Standing.ip h_standing, congrArg Core.Standing.dp h_standing⟩

/-- A board with four words of each memory in use, in load mode, with a request for the
last word on both buses and a byte that waits to be sent. -/
def staleBoard : Board where
  core :=
    { Core.new ⟨⟨2, Nat.zero_lt_two⟩, ⟨2, Nat.zero_lt_two⟩⟩ with
      code := (Memory.zeros ⟨2, Nat.zero_lt_two⟩).store 0 [1, 2, 3, 4]
      data := (Memory.zeros ⟨2, Nat.zero_lt_two⟩).store 0 [5, 6, 7, 8]
      ip := 1
      dp := 3
      init := true
      codeBus := .offering 3 255
      dataBus := .offering (-1) 255 }
  terminal := ⟨#[1], [2], true, .echo, #[]⟩
  imageSize := 4
  booted := true

/-- Two words and one byte are loaded in three clocks. The requests that were left on the
buses are not carried out. -/
theorem load_writes_stale :
    let loaded := staleBoard.load #[4, 5] #[9] false
    (#[4, 5] : Array UInt8).size ≤ staleBoard.core.code.size ∧
      (#[9] : Array UInt8).size ≤ staleBoard.core.data.size ∧
      loaded.answer = .ok 3 ∧
      loaded.board.core.code.read 1 = 5 ∧ loaded.board.core.code.read 3 = 4 ∧
      loaded.board.core.data.read 0 = 9 ∧ loaded.board.core.data.read 3 = 8 ∧
      loaded.board.core.ip = 1 ∧ loaded.board.core.dp = 3 ∧
      loaded.board.terminal = staleBoard.terminal := by
  intro loaded
  have h_image : (#[4, 5] : Array UInt8).size ≤ staleBoard.core.code.size := by decide
  have h_data : (#[9] : Array UInt8).size ≤ staleBoard.core.data.size := by decide
  obtain ⟨h_answer, h⟩ := staleBoard.load_writes false h_image h_data
  obtain ⟨h_ip, h_dp⟩ := h.pointers_kept rfl (by decide) (by decide)
  refine ⟨h_image, h_data, h_answer, h.words 1 (by decide), ?_, h.cells 0 (by decide), ?_, h_ip,
    h_dp, h.terminal⟩
  · exact (h.behind_words 3 (by decide)).trans (by decide)
  · exact (h.behind_cells 3 (by decide)).trans (by decide)

end Board

end TapeProcessor
