/-!
# Operations of the machine

The machine has eight operations. Six act on the current cell, the pointer or a
channel and occupy one word. The other two jump; the word behind them holds the
distance. Each operation has a code in the low three bits of its word, a mnemonic
for listings and a character of source text.

* `Command` is an operation of one word, `Opcode` any of the eight.
* `Opcode.word` and `Opcode.ofWord` are the encoding (`Opcode.ofWord_word`); the upper
  five bits of a word do not matter (`Opcode.ofWord_eq_ofCode`).
* `Opcode.symbol` and `Opcode.ofSymbol?` are the spelling in source text
  (`Opcode.ofSymbol?_eq_some_iff`).
-/

namespace TapeProcessor

/-- An operation that occupies one word. -/
inductive Command
  /-- Adds one to the current cell. -/
  | inc
  /-- Takes one from the current cell. -/
  | dec
  /-- Moves the pointer to the next cell. -/
  | right
  /-- Moves the pointer to the previous cell. -/
  | left
  /-- Sends the current cell to the output channel. -/
  | put
  /-- Stores a byte of the input channel in the current cell. -/
  | get
  deriving DecidableEq, Repr

/-- An operation of the machine. -/
inductive Opcode
  | plain (c : Command)
  /-- Jumps forward over a loop if the current cell is zero. -/
  | jz
  /-- Jumps back to the head of a loop. -/
  | jmp
  deriving DecidableEq, Repr

namespace Opcode

/-- The operations in the order of their codes. -/
def all : List Opcode :=
  [.plain .inc, .plain .dec, .plain .right, .plain .left, .plain .put, .plain .get, .jz, .jmp]

/-- The number in the low three bits of the operation's word. -/
def code : Opcode → Nat
  | plain .inc => 0
  | plain .dec => 1
  | plain .right => 2
  | plain .left => 3
  | plain .put => 4
  | plain .get => 5
  | jz => 6
  | jmp => 7

/-- The operation's word, with the unused bits zero. -/
def word (op : Opcode) : UInt8 := UInt8.ofNat op.code

/-- The bits of a word that tell the operation. -/
def mask : UInt8 := 7

/-- The operation with a code below eight. -/
def ofCode : Nat → Opcode
  | 0 => plain .inc
  | 1 => plain .dec
  | 2 => plain .right
  | 3 => plain .left
  | 4 => plain .put
  | 5 => plain .get
  | 6 => jz
  | _ => jmp

/-- The operation a word stands for. -/
def ofWord (w : UInt8) : Opcode := ofCode (w &&& mask).toNat

/-- The number of words the operation occupies. -/
def size : Opcode → Nat
  | plain _ => 1
  | jz | jmp => 2

/-- The name in listings. -/
def mnemonic : Opcode → String
  | plain .inc => "INC"
  | plain .dec => "DEC"
  | plain .right => "PINC"
  | plain .left => "PDEC"
  | plain .put => "PUT"
  | plain .get => "GET"
  | jz => "JZ"
  | jmp => "JMP"

/-- The character in source text. -/
def symbol : Opcode → Char
  | plain .inc => '+'
  | plain .dec => '-'
  | plain .right => '>'
  | plain .left => '<'
  | plain .put => '.'
  | plain .get => ','
  | jz => '['
  | jmp => ']'

/-- The operation a character of source text stands for; any other character is a
comment. -/
def ofSymbol? : Char → Option Opcode
  | '+' => some (plain .inc)
  | '-' => some (plain .dec)
  | '>' => some (plain .right)
  | '<' => some (plain .left)
  | '.' => some (plain .put)
  | ',' => some (plain .get)
  | '[' => some jz
  | ']' => some jmp
  | _ => none

@[simp] theorem ofWord_word (op : Opcode) : ofWord op.word = op := by
  rcases op with c | _ | _
  · cases c <;> rfl
  · rfl
  · rfl

/-- The mask takes the remainder of a word modulo eight. -/
theorem ofWord_eq_ofCode (w : UInt8) : ofWord w = ofCode (w.toNat % 8) := by
  rw [ofWord, UInt8.toNat_and]
  exact congrArg ofCode (Nat.and_two_pow_sub_one_eq_mod w.toNat 3)

@[simp] theorem ofSymbol?_symbol (op : Opcode) : ofSymbol? op.symbol = some op := by
  rcases op with c | _ | _
  · cases c <;> rfl
  · rfl
  · rfl

/-- A row of symbols spells one row of operations. -/
theorem filterMap_ofSymbol? (ops : List Opcode) :
    (ops.map symbol).filterMap ofSymbol? = ops := by
  induction ops with
  | nil => rfl
  | cons op ops ih => rw [List.map_cons, List.filterMap_cons_some (ofSymbol?_symbol op), ih]

/-- **Each operation has one character.** -/
theorem ofSymbol?_eq_some_iff {c : Char} {op : Opcode} : ofSymbol? c = some op ↔ c = op.symbol := by
  constructor
  · intro h_found
    unfold ofSymbol? at h_found
    split at h_found <;> cases h_found <;> rfl
  · rintro rfl
    exact ofSymbol?_symbol op

end Opcode

end TapeProcessor
