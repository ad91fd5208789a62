import TapeProcessor.Bits
import TapeProcessor.Opcode
import TapeProcessor.Text.Hex

/-!
# Listings of code memory

A listing shows code as instructions, one to a line: the address, the raw words,
the mnemonic and, for a jump, its distance and the address it leads to. Code may
be listed from any integer address; it is read as if it repeated in both
directions, and the targets of jumps wrap at the capacity of code memory, as the
instruction pointer does.

* `Instruction.decode` is the instruction at an address.
* `Listing.lines` lists the instructions from one address up to another; there is
  no answer if instructions are asked of no code at all.
* `Line.render` is the text of a line, and `Line.isMarked` says which lines of a
  listing are shown as current.
-/

namespace TapeProcessor

/-- An instruction as it is listed. -/
inductive Instruction
  | plain (c : Command)
  | jz (distance : UInt8) (target : Int)
  | jmp (distance : UInt8) (target : Int)
  deriving DecidableEq, Repr

/-- The word of the code at an address, the code repeating in both directions. -/
def Listing.wordAt (code : Array UInt8) (address : Int) : UInt8 :=
  code.getD (address % code.size).toNat 0

namespace Instruction

/-- The instruction at an address of some code, for a code memory of `capacity`
words. -/
def decode (code : Array UInt8) (capacity address : Int) : Instruction :=
  match Opcode.ofWord (Listing.wordAt code address) with
  | .plain c => plain c
  | .jz =>
    -- the mask is the one that wraps the instruction pointer
    let distance := Listing.wordAt code (address + 1)
    jz distance (Bits.and (address + 1 + distance.toNat) (capacity - 1))
  | .jmp =>
    let distance := Listing.wordAt code (address + 1)
    jmp distance (Bits.and (address + 1 - distance.toNat) (capacity - 1))

/-- The operation of an instruction. -/
def opcode : Instruction → Opcode
  | plain c => .plain c
  | jz .. => .jz
  | jmp .. => .jmp

/-- The number of words of an instruction. -/
def size (i : Instruction) : Nat := i.opcode.size

/-- A listing moves on with every line. -/
theorem size_pos (i : Instruction) : 0 < i.size := by
  cases i <;> simp [size, opcode, Opcode.size]

/-- The text of an instruction. -/
def text (i : Instruction) : String :=
  match i with
  | plain _ => i.opcode.mnemonic
  -- the target follows as a comment
  | jz distance target | jmp distance target =>
    i.opcode.mnemonic ++ " " ++ toString distance.toNat ++ "  ; -> "
      ++ Hex.Style.shortAddress.render target

end Instruction

/-- A line of a listing. -/
structure Line where
  address : Int
  /-- The raw words of the instruction, as many as its size. -/
  words : List UInt8
  instruction : Instruction
  deriving DecidableEq, Repr

namespace Line

/-- The raw words, two digits each. -/
def rawText (l : Line) : String :=
  String.intercalate " " (l.words.map fun w => Hex.Style.listingByte.render w.toNat)

/-- The least number of characters between the address and the mnemonic. -/
def rawWidth : Nat := 6

/-- The text of a line: address, raw words, instruction. -/
def render (l : Line) : String :=
  let raw := l.rawText
  let gap := String.ofList (List.replicate (rawWidth - raw.length) ' ')
  Hex.Style.listingAddress.render l.address ++ ": " ++ raw ++ gap ++ " " ++ l.instruction.text

/-- Whether a line is shown as current. What is compared with the instruction
pointer are the first four digits of the line, which are the whole address as
long as that has no more. -/
def isMarked (ip : Nat) (l : Line) : Bool :=
  Hex.value? ((Hex.Style.listingAddress.write l.address).take 4) == some ip

/-- The text of a line behind the column of the current-line marker. -/
def renderMarked (ip : Nat) (l : Line) : String :=
  (if l.isMarked ip then " >" else "  ") ++ l.render

end Line

namespace Listing

/-- The line for an address. -/
def lineAt (code : Array UInt8) (capacity address : Int) : Line :=
  let instruction := Instruction.decode code capacity address
  { address
    words := (List.range instruction.size).map fun k : Nat => wordAt code (address + k)
    instruction }

/-- Continues a listing at `address`, as long as that is below `stop`. -/
def linesFrom (code : Array UInt8) (capacity stop : Int) (before : Array Line) (address : Int) :
    Array Line :=
  if address < stop then
    let line := lineAt code capacity address
    linesFrom code capacity stop (before.push line) (address + line.instruction.size)
  else before
termination_by (stop - address).toNat
decreasing_by
  have := (lineAt code capacity address).instruction.size_pos
  omega

/-- The lines of the instructions from `start` on that begin below `stop`; `none`
if there is a line to list and no code. -/
def lines (code : Array UInt8) (start stop capacity : Int) : Option (Array Line) :=
  if code.isEmpty ∧ start < stop then none
  else some (linesFrom code capacity stop #[] start)

/-- The instruction at one address; `none` if there is no code. -/
def instructionAt? (code : Array UInt8) (address capacity : Int) : Option Instruction :=
  if code.isEmpty then none else some (Instruction.decode code capacity address)

end Listing

end TapeProcessor
