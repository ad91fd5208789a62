import TapeProcessor.Opcode

/-!
# The operations of a source text

A source text is a row of characters, eight of which stand for operations. All
other characters are comments and may stand anywhere.

* `Token.scan` lists the operations of a text, each with its position.
* `Token.opcode_scan` says that comments leave the operations as they are.
-/

namespace TapeProcessor

/-- An operation and the number of characters before it. -/
structure Token where
  opcode : Opcode
  position : Nat
  deriving DecidableEq, Repr

namespace Token

/-- The operations of a text whose first character is at the given position. -/
def scanFrom (position : Nat) (text : List Char) : List Token :=
  (text.zipIdx position).filterMap fun (c, i) => (Opcode.ofSymbol? c).map fun op => ⟨op, i⟩

/-- The operations of a text. -/
def scan (text : List Char) : List Token := scanFrom 0 text

@[simp] theorem scanFrom_nil (position : Nat) : scanFrom position [] = [] := rfl

/-- A character that is an operation makes the first token. -/
theorem scanFrom_cons (position : Nat) (c : Char) (rest : List Char) :
    scanFrom position (c :: rest) =
      ((Opcode.ofSymbol? c).map fun op => ⟨op, position⟩).toList
        ++ scanFrom (position + 1) rest := by
  cases h_found : Opcode.ofSymbol? c <;> simp [scanFrom, List.zipIdx_cons, h_found]

/-- **Scanning keeps the operations and drops the comments.** -/
theorem opcode_scan (position : Nat) (text : List Char) :
    (scanFrom position text).map opcode = text.filterMap Opcode.ofSymbol? := by
  induction text generalizing position with
  | nil => rfl
  | cons c rest ih =>
    rw [scanFrom_cons, List.map_append, ih]
    cases h_found : Opcode.ofSymbol? c <;> simp [h_found]

end Token

end TapeProcessor
