import TapeProcessor.Link
import TapeProcessor.Memory.Basic
import TapeProcessor.Opcode

/-!
# The processor core

The core has a memory for code and one for data, a register that points into
each, and a link to a host. Two control lines put it into load mode and reset its
registers. In load mode each memory is written through a bus of its own.

* `Core` holds all of it, together with counters of clocks and of stalled ones.
* `LoadBus` is one of the buses; `Bank` tells the two memories apart.
* `Core.instruction`, `Core.opcode` and `Core.cell` are what the registers point
  at.
-/

namespace TapeProcessor

/-- The signals of a bus that writes a memory in load mode. The address and the
byte may be any integers. -/
structure LoadBus where
  valid : Bool
  address : Int
  bits : Int
  deriving DecidableEq, Repr

namespace LoadBus

/-- A bus that offers nothing. -/
def idle : LoadBus := ⟨false, 0, 0⟩

/-- A bus that offers a byte for an address. -/
def offering (address bits : Int) : LoadBus := ⟨true, address, bits⟩

end LoadBus

/-- One of the two memories. -/
inductive Bank
  | code
  | data
  deriving DecidableEq, Repr

/-- The state of the processor. -/
structure Core where
  code : Memory
  data : Memory
  /-- The instruction pointer, an address of code memory. -/
  ip : Nat
  /-- The data pointer, an address of data memory. -/
  dp : Nat
  /-- The control line that selects load mode. -/
  init : Bool
  /-- The control line that resets both pointers. -/
  boot : Bool
  codeBus : LoadBus
  dataBus : LoadBus
  link : Link
  cycles : Nat
  /-- The number of clocks on which an instruction waited for a channel. -/
  stalls : Nat

namespace Core

/-- A core with empty memories on which nothing is driven. -/
def new (g : Geometry) : Core where
  code := Memory.zeros g.code
  data := Memory.zeros g.data
  ip := 0
  dp := 0
  init := false
  boot := false
  codeBus := .idle
  dataBus := .idle
  link := .idle
  cycles := 0
  stalls := 0

/-- A core with the given sizes of memories. -/
def ofSizes (codeSize dataSize : Int) : Except SizeError Core :=
  (Geometry.ofSizes codeSize dataSize).map new

/-- The word at the instruction pointer. -/
def instruction (c : Core) : UInt8 := c.code.read c.ip

/-- The operation at the instruction pointer. -/
def opcode (c : Core) : Opcode := .ofWord c.instruction

/-- The byte at the data pointer. -/
def cell (c : Core) : UInt8 := c.data.read c.dp

/-- Offers a byte on the bus of a memory. -/
def offer (c : Core) (bank : Bank) (address bits : Int) : Core :=
  match bank with
  | .code => { c with codeBus := .offering address bits }
  | .data => { c with dataBus := .offering address bits }

/-- Withdraws what is offered on the bus of a memory. -/
def withdraw (c : Core) (bank : Bank) : Core :=
  match bank with
  | .code => { c with codeBus := .idle }
  | .data => { c with dataBus := .idle }

/-- Writes bytes straight into a memory. -/
def store (c : Core) (bank : Bank) (address : Int) (bytes : List UInt8) : Core :=
  match bank with
  | .code => { c with code := c.code.store address bytes }
  | .data => { c with data := c.data.store address bytes }

end Core

end TapeProcessor
