import TapeProcessor.Board.Basic
import TapeProcessor.Program.Block

/-!
# Loading programs

A program is loaded through the buses of the core, one word on each clock, the
data memory first and the code memory second. Both requests are checked before
anything is touched, so a refused load leaves the board as it was.

* `Board.load` loads an image, `Board.loadSource` the image of a source text.
* `Board.initialData` are the bytes that a load writes to data memory.
* `Board.feed` offers a row of words to one memory, on a clock each.
-/

namespace TapeProcessor.Board

/-- Offers `words` on the bus of a memory, for the addresses from `address` on,
one on each clock. -/
def feed (bank : Bank) (address : Nat) : List UInt8 → Board → Board
  | [], b => b
  | word :: rest, b =>
    feed bank (address + 1) rest
      { b with core := b.core.offer bank address word.toNat }.clock.2

/-- The bytes written to the first cells of a data memory of `cells` cells: the
given ones, and zeros up to the end of the memory if it is to be cleared. -/
def initialData (cells : Nat) (data : Array UInt8) (zeroData : Bool) : List UInt8 :=
  if zeroData then data.toList ++ List.replicate (cells - data.size) 0 else data.toList

/-- The board in load mode, with no word offered for code memory. -/
def openForLoad (b : Board) : Board :=
  { b with core := { b.core with init := true }.withdraw .code }

/-- Leaves load mode with an image of `words` words in code memory. -/
def closeAfterLoad (b : Board) (words : Nat) : Board :=
  { b with
    core := { b.core.withdraw .code with init := false }
    imageSize := words
    booted := false }

/-- The board with no byte offered for data memory. -/
def withdrawData (b : Board) : Board := { b with core := b.core.withdraw .data }

/-- Loads an image, and initial data, and answers with the number of clocks it
took. -/
def load (b : Board) (image data : Array UInt8) (zeroData : Bool) : Outcome Nat :=
  let capacity := b.core.code.size
  let cells := b.core.data.size
  if image.size > capacity then .refused (.imageTooLong image.size capacity) b
  else if data.size > cells then .refused (.dataTooLong data.size cells) b
  else
    -- data memory first, then code memory, without leaving load mode in between
    let bytes := initialData cells data zeroData
    let filled := (feed .data 0 bytes b.openForLoad).withdrawData
    let written := (feed .code 0 image.toList filled).closeAfterLoad image.size
    let clocks := bytes.length + image.size
    .success clocks written [.loaded image.size bytes.length clocks]

/-- The event that compiling a source text leaves in the journal. -/
def compileEvent (source : String) : Except Violation (Array UInt8) → Event
  | .ok image => .compiled source.length image.size
  | .error violation => .compileFailed (violation.diagnose source).text

/-- Compiles a source text for the code memory of the board and loads the image. A
text that is rejected is refused before anything is loaded. -/
def loadSource (b : Board) (source : String) (data : Array UInt8) (zeroData : Bool) :
    Outcome Nat :=
  let compiled := Program.compile source b.core.code.size
  let event := compileEvent source compiled
  match compiled with
  -- a text that is rejected is entered in the journal all the same
  | .error violation => ⟨.error (.source source violation), b, [event]⟩
  | .ok image =>
    let outcome := b.load image data zeroData
    { outcome with events := event :: outcome.events }

/-- Resets the core: the reset line is high for one clock. -/
def boot (b : Board) : Outcome Unit :=
  -- the line is high for this clock only, on which the core puts its pointers to zero
  let pulsed := { b with core := { b.core with boot := true } }.clock.2
  .success () { pulsed with core := { pulsed.core with boot := false }, booted := true } [.booted]

end TapeProcessor.Board
