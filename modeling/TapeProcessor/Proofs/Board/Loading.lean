import TapeProcessor.Board.Load

/-!
# Bringing up a program

What loading and booting leave, from any board whatsoever. The prior registers, the
control lines, what was offered on the buses and the signals of the link play no
part in it.

* While the core is held, no clock touches the terminal (`Board.terminal_clock_of_held`).
* `Board.feed` on a board in load mode is `Memory.store` on the memory it feeds, and
  changes nothing of the other one (`Board.Feeding.feed`).
* `Board.load_spec` and `Board.boot_spec` put this together: afterwards code memory
  begins with the image, data memory holds the given bytes and zeros, both pointers
  are zero, and the terminal is as it was.
-/

namespace TapeProcessor

namespace Memory

/-- **Reading what was stored**, where the bytes do not run over the end. -/
theorem read_store (m : Memory) {address : Nat} {bytes : List UInt8}
    (h : address + bytes.length ≤ m.size) (other : Nat) :
    (m.store address bytes).read other
      = if other < address then m.read other
        else (bytes[other - address]?).getD (m.read other) := by
  induction bytes generalizing m address with
  | nil => simp [store]
  | cons byte rest ih =>
    rw [List.length_cons] at h
    have h_lt : address < m.size := by omega
    have h_rest : address + 1 + rest.length ≤ (m.write address byte).size := by
      rw [size_write]
      omega
    have h_next : ((address : Int) + 1) = ((address + 1 : Nat) : Int) := rfl
    rw [store, wrap_natCast_of_lt m h_lt, h_next, ih _ h_rest, read_write m h_lt]
    -- in front of the bytes, the first of them, and the others
    rcases Nat.lt_trichotomy other address with h_other | rfl | h_other
    · rw [if_pos (by omega), if_neg (by omega), if_pos h_other]
    · simp
    · rw [if_neg (by omega), if_neg (by omega), if_neg (by omega),
        show other - address = other - (address + 1) + 1 by omega, List.getElem?_cons_succ]

/-- Bytes that are stored at the start are read at their own index. -/
theorem read_store_zero (m : Memory) {bytes : List UInt8} (h : bytes.length ≤ m.size)
    (other : Nat) :
    (m.store 0 bytes).read other = (bytes[other]?).getD (m.read other) := by
  have h_fits : 0 + bytes.length ≤ m.size := by omega
  have h_store := m.read_store h_fits other
  rwa [if_neg (Nat.not_lt_zero _)] at h_store

/-- Behind the end of a memory zeros are read. -/
theorem read_of_size_le (m : Memory) {address : Nat} (h : m.size ≤ address) :
    m.read address = 0 := by
  rw [read, Array.getD_eq_getD_getElem?, Array.getElem?_eq_none h]
  rfl

end Memory

/-- The memory that is not this one. -/
def Bank.other : Bank → Bank
  | .code => .data
  | .data => .code

namespace Core

/-- The memory of a bank. -/
def memory (c : Core) : Bank → Memory
  | .code => c.code
  | .data => c.data

/-- The bus of a bank. -/
def bus (c : Core) : Bank → LoadBus
  | .code => c.codeBus
  | .data => c.dataBus

/-- The core runs no instruction on its next clock. -/
def Held (c : Core) : Prop := c.init = true ∨ c.boot = true

/-- A held core has the plan to hold. -/
theorem Held.plan_eq {c : Core} (h : c.Held) : c.plan = c.hold := by
  unfold plan
  rw [if_pos]
  exact Bool.or_eq_true_iff.mpr h

/-- In load mode a clock writes to each memory what its bus offers. -/
theorem memory_step_of_init {c : Core} (h : c.init = true) (bank : Bank) :
    c.step.2.memory bank = (c.memory bank).apply ((c.bus bank).write? (c.memory bank)) := by
  have h_held : c.Held := Or.inl h
  -- the two memories are written alike, each from its own bus
  cases bank with
  | code =>
    change c.step.2.code = _
    rw [step_snd, code_commit, h_held.plan_eq, hold, h]
    rfl
  | data =>
    change c.step.2.data = _
    rw [step_snd, data_commit, h_held.plan_eq, hold, h]
    rfl

theorem bus_offer (c : Core) (bank : Bank) (address bits : Int) :
    (c.offer bank address bits).bus bank = .offering address bits ∧
      (c.offer bank address bits).bus bank.other = c.bus bank.other := by
  cases bank <;> exact ⟨rfl, rfl⟩

theorem memory_offer (c : Core) (bank bank' : Bank) (address bits : Int) :
    (c.offer bank address bits).memory bank' = c.memory bank' := by
  cases bank <;> cases bank' <;> rfl

end Core

namespace LoadBus

/-- A bus that offers nothing writes nothing. -/
theorem write?_idle {bus : LoadBus} (h : bus.valid = false) (m : Memory) : bus.write? m = none := by
  unfold write?
  rw [h]
  rfl

/-- What is offered is written at the address that the integer names. -/
theorem write?_offering (m : Memory) (address : Int) (word : UInt8) :
    (offering address word.toNat).write? m = some (m.wrap address, word) := by
  change some (m.wrap address, Bits.toByte word.toNat) = _
  rw [Bits.toByte_toNat]

end LoadBus

namespace Board

/-! ### Clocks on which the core is held -/

variable {b : Board}

/-- **A held core is silent.** It sends nothing and takes nothing. -/
theorem terminal_clock_of_held (h : b.core.Held) : b.clock.2.terminal = b.terminal := by
  have h_driven : b.drivenCore.Held := h
  rw [terminal_clock, Core.step_snd, h_driven.plan_eq]
  rfl

/-- No instruction retires on a held core. -/
theorem clock_fst_of_held (h : b.core.Held) : b.clock.1 = false := by
  have h_driven : b.drivenCore.Held := h
  rw [clock_fst, Core.step_fst, h_driven.plan_eq]
  rfl

/-- The board with a word on the bus of a memory. -/
def offering (b : Board) (bank : Bank) (address : Nat) (word : UInt8) : Board :=
  { b with core := b.core.offer bank address word.toNat }

/-- The board with the reset line high. -/
def resetting (b : Board) : Board := { b with core := { b.core with boot := true } }

/-- The board feeds one memory: the core is in load mode and nothing is offered for
the other one. -/
structure Feeding (bank : Bank) (b : Board) : Prop where
  init : b.core.init = true
  quiet : (b.core.bus bank.other).valid = false

/-- What a board has in common with one that it comes from by feeding `bank`. -/
structure FedFrom (bank : Bank) (b b' : Board) : Prop where
  other : b'.core.memory bank.other = b.core.memory bank.other
  boot : b'.core.boot = b.core.boot
  terminal : b'.terminal = b.terminal

namespace Feeding

variable {bank : Bank}

/-- **One word.** A clock writes the word that is offered. -/
theorem offer (h : b.Feeding bank) (address : Nat) (word : UInt8) :
    let b' := (b.offering bank address word).clock.2
    b'.Feeding bank ∧ b.FedFrom bank b' ∧
      b'.core.memory bank
        = (b.core.memory bank).write ((b.core.memory bank).wrap address) word := by
  intro b'
  have h_init : (b.core.offer bank address word.toNat).init = true := by
    cases bank <;> exact h.init
  obtain ⟨h_bus, h_idle⟩ := b.core.bus_offer bank address word.toNat
  -- the link that the terminal drives has no part in a load clock
  have h_memory : ∀ bank', b'.core.memory bank' = (b.core.memory bank').apply
      (((b.core.offer bank address word.toNat).bus bank').write? (b.core.memory bank')) := by
    intro bank'
    rw [← b.core.memory_offer bank bank' address word.toNat]
    exact Core.memory_step_of_init (c := (b.offering bank address word).drivenCore) h_init bank'
  refine ⟨⟨h_init, ?_⟩, ⟨?_, ?_, ?_⟩, ?_⟩
  -- nothing is offered for the other memory, so it stays as it is
  · exact (congrArg LoadBus.valid h_idle).trans h.quiet
  · rw [h_memory, h_idle, LoadBus.write?_idle h.quiet]
    rfl
  · cases bank <;> rfl
  · exact terminal_clock_of_held (b := b.offering bank address word) (Or.inl h_init)
  -- the memory that is fed takes the word
  · rw [h_memory, h_bus, LoadBus.write?_offering]
    rfl

/-- **A row of words** is stored in the memory that is fed. -/
theorem feed (h : b.Feeding bank) (address : Nat) (words : List UInt8) :
    let b' := Board.feed bank address words b
    b'.Feeding bank ∧ b.FedFrom bank b' ∧
      b'.core.memory bank = (b.core.memory bank).store address words := by
  induction words generalizing b address with
  | nil => exact ⟨h, ⟨rfl, rfl, rfl⟩, rfl⟩
  | cons word rest ih =>
    obtain ⟨h_first, h_from, h_memory⟩ := h.offer address word
    obtain ⟨h_last, h_from', h_memory'⟩ := ih h_first (address + 1)
    refine ⟨h_last, ⟨h_from'.other.trans h_from.other, h_from'.boot.trans h_from.boot,
      h_from'.terminal.trans h_from.terminal⟩, ?_⟩
    rw [h_memory] at h_memory'
    exact h_memory'

end Feeding

/-! ### Loading and booting -/

/-- The core holds an image at the start of code memory, and in data memory the given
bytes with zeros behind them. -/
structure Holds (b : Board) (image data : Array UInt8) : Prop where
  code : ∀ a (h : a < image.size), b.core.code.read a = image[a]
  data : ∀ a, b.core.data.read a = data.getD a 0

/-- A load that clears data memory writes each of its cells, another one just the data. -/
theorem length_initialData {cells : Nat} {data : Array UInt8} (h : data.size ≤ cells)
    (zeroData : Bool) :
    (initialData cells data zeroData).length = if zeroData then cells else data.size := by
  cases zeroData with
  | true =>
    rw [initialData, if_pos rfl, if_pos rfl, List.length_append, List.length_replicate,
      Array.length_toList]
    omega
  | false => exact Array.length_toList

theorem length_initialData_le {cells : Nat} {data : Array UInt8} (h : data.size ≤ cells)
    (zeroData : Bool) : (initialData cells data zeroData).length ≤ cells := by
  rw [length_initialData h]
  split
  · exact Nat.le_refl _
  · exact h

/-- Behind the data, a load that clears writes zeros. -/
theorem getElem?_initialData {cells : Nat} {data : Array UInt8} (h : data.size ≤ cells) {a : Nat}
    (h_lt : a < cells) : (initialData cells data true)[a]? = some (data.getD a 0) := by
  rw [initialData, if_pos rfl]
  -- in the data, or in the zeros behind them
  by_cases h_data : a < data.size
  · rw [List.getElem?_append_left (by simpa using h_data), Array.getElem?_toList]
    simp [h_data]
  · rw [List.getElem?_append_right (by simpa using h_data), List.getElem?_replicate,
      Array.length_toList, if_pos (by omega)]
    simp [h_data]

/-- **The cells after a load**: the data, and behind it zeros or what was there. -/
theorem read_store_initialData (m : Memory) {data : Array UInt8} (h : data.size ≤ m.size)
    (zeroData : Bool) (a : Nat) :
    (m.store 0 (initialData m.size data zeroData)).read a
      = data.getD a (if zeroData then 0 else m.read a) := by
  rw [Memory.read_store_zero _ (length_initialData_le h zeroData)]
  cases zeroData with
  | true =>
    by_cases h_lt : a < m.size
    · rw [getElem?_initialData h h_lt]
      rfl
    -- past the end there are zeros on both sides
    · have h_none : (initialData m.size data true)[a]? = none := by
        refine List.getElem?_eq_none ?_
        rw [length_initialData h, if_pos rfl]
        omega
      rw [h_none, Option.getD_none, Memory.read_of_size_le _ (by omega)]
      simp [show ¬ a < data.size by omega]
  | false =>
    change (data.toList[a]?).getD (m.read a) = data.getD a (m.read a)
    rw [Array.getElem?_toList, Array.getD_eq_getD_getElem?]

/-- What a board has in common with one that it comes from by feeding both memories. -/
structure FilledFrom (b b' : Board) (image bytes : List UInt8) : Prop where
  feeding : b'.Feeding .code
  code : b'.core.code = b.core.code.store 0 image
  data : b'.core.data = b.core.data.store 0 bytes
  boot : b'.core.boot = b.core.boot
  terminal : b'.terminal = b.terminal

/-- **Both feeds of a load**, from any board. -/
theorem filledFrom (b : Board) (image bytes : List UInt8) :
    b.FilledFrom (feed .code 0 image (feed .data 0 bytes b.openForLoad).withdrawData) image
      bytes := by
  -- the data memory first, the code memory second
  have h_opened : b.openForLoad.Feeding .data := ⟨rfl, rfl⟩
  obtain ⟨h_fed, h_from, h_cells⟩ := h_opened.feed 0 bytes
  generalize feed .data 0 bytes b.openForLoad = fed at h_fed h_from h_cells ⊢
  have h_withdrawn : fed.withdrawData.Feeding .code := ⟨h_fed.init, rfl⟩
  obtain ⟨h_written, h_from', h_words⟩ := h_withdrawn.feed 0 image
  generalize feed .code 0 image fed.withdrawData = written at h_written h_from' h_words ⊢
  refine ⟨h_written, ?_, ?_, h_from'.boot.trans h_from.boot,
    h_from'.terminal.trans h_from.terminal⟩
  · change written.core.code = fed.core.code.store 0 image at h_words
    rw [h_words, show fed.core.code = b.core.code from h_from.other]
  · rw [show written.core.data = fed.core.data from h_from'.other]
    exact h_cells

/-- What a load has left when it is carried out. -/
structure Loaded (b b' : Board) (image data : Array UInt8) : Prop where
  holds : b'.Holds image data
  code_size : b'.core.code.size = b.core.code.size
  data_size : b'.core.data.size = b.core.data.size
  init : b'.core.init = false
  terminal : b'.terminal = b.terminal
  imageSize : b'.imageSize = image.size

/-- **A load that is carried out** is a feed of each memory. -/
theorem load_of_fits (b : Board) {image data : Array UInt8} {zeroData : Bool} {bytes : List UInt8}
    (h_image : image.size ≤ b.core.code.size) (h_data : data.size ≤ b.core.data.size)
    (h_bytes : initialData b.core.data.size data zeroData = bytes) :
    b.load image data zeroData = .success (bytes.length + image.size)
      ((feed .code 0 image.toList (feed .data 0 bytes b.openForLoad).withdrawData).closeAfterLoad
        image.size)
      [.loaded image.size bytes.length (bytes.length + image.size)] := by
  subst h_bytes
  unfold load
  rw [if_neg (by omega), if_neg (by omega)]

/-- **A load, from any board.** It is carried out if both parts fit. Data memory is
cleared behind the data, and the terminal is left alone. -/
theorem load_spec (b : Board) {image data : Array UInt8} (h_image : image.size ≤ b.core.code.size)
    (h_data : data.size ≤ b.core.data.size) :
    (b.load image data true).answer = .ok (b.core.data.size + image.size) ∧
      b.Loaded (b.load image data true).board image data := by
  obtain ⟨-, h_words, h_cells, -, h_terminal⟩ :=
    b.filledFrom image.toList (initialData b.core.data.size data true)
  rw [b.load_of_fits h_image h_data rfl, length_initialData h_data true]
  generalize feed .code 0 image.toList
    (feed .data 0 (initialData b.core.data.size data true) b.openForLoad).withdrawData = written
    at h_words h_cells h_terminal ⊢
  refine ⟨rfl, ⟨fun a h_a => ?_, fun a => ?_⟩, ?_, ?_, rfl, h_terminal, rfl⟩
  -- the image lies in code memory, the data and zeros in data memory
  · change written.core.code.read a = _
    rw [h_words, Memory.read_store_zero _ (by simpa using h_image), Array.getElem?_toList]
    simp [h_a]
  · change written.core.data.read a = _
    rw [h_cells, read_store_initialData _ h_data]
    rfl
  · change written.core.code.size = _
    rw [h_words, Memory.size_store]
  · change written.core.data.size = _
    rw [h_cells, Memory.size_store]

/-- **A source text that loads** was compiled, and its image and the data fit. -/
theorem loadSource_spec {b : Board} {source : String} {data : Array UInt8} {clocks : Nat}
    (h : (b.loadSource source data true).answer = .ok clocks) :
    ∃ image, Program.compile source b.core.code.size = .ok image ∧
      b.Loaded (b.loadSource source data true).board image data := by
  unfold loadSource at h ⊢
  cases h_compile : Program.compile source b.core.code.size with
  | error violation =>
    rw [h_compile] at h
    cases h
  | ok image =>
    rw [h_compile] at h
    refine ⟨image, rfl, ?_⟩
    replace h : (b.load image data true).answer = .ok clocks := h
    -- a check that failed would have been the answer
    have h_image : image.size ≤ b.core.code.size := by
      refine Nat.le_of_not_lt fun h_long => ?_
      rw [load, if_pos (by omega)] at h
      cases h
    have h_data : data.size ≤ b.core.data.size := by
      refine Nat.le_of_not_lt fun h_long => ?_
      rw [load, if_neg (by omega), if_pos (by omega)] at h
      cases h
    exact (b.load_spec h_image h_data).2

/-- What a boot leaves, with load mode off. -/
structure Booted (b b' : Board) : Prop where
  code : b'.core.code = b.core.code
  data : b'.core.data = b.core.data
  ip : b'.core.ip = 0
  dp : b'.core.dp = 0
  init : b'.core.init = false
  boot : b'.core.boot = false
  terminal : b'.terminal = b.terminal
  booted : b'.booted = true

/-- **A boot**, with load mode off: both pointers are zero and nothing else changes. -/
theorem boot_spec {b : Board} (h_init : b.core.init = false) : b.Booted b.boot.board := by
  have h_held : b.resetting.drivenCore.Held := Or.inr rfl
  have h_terminal : b.boot.board.terminal = b.terminal :=
    terminal_clock_of_held (b := b.resetting) (Or.inr rfl)
  -- the pulse is one clock on which the core is held by the reset line
  have h_core : b.boot.board.core
      = { b.resetting.drivenCore.commit b.resetting.drivenCore.hold with boot := false } := by
    rw [← h_held.plan_eq]
    rfl
  refine ⟨?_, ?_, ?_, ?_, ?_, ?_, h_terminal, rfl⟩
  · rw [h_core]
    change b.core.code.apply (if b.core.init then _ else none) = _
    rw [h_init]
    rfl
  · rw [h_core]
    change b.core.data.apply (if b.core.init then _ else none) = _
    rw [h_init]
    rfl
  · rw [h_core]
    exact b.core.code.wrap_natCast_of_lt b.core.code.size_pos
  · rw [h_core]
    exact b.core.data.wrap_natCast_of_lt b.core.data.size_pos
  · rw [h_core]
    exact h_init
  · rw [h_core]

end Board

end TapeProcessor
