/-!
# Lines and columns

A position in a text is the number of characters before it. For a reader it is
shown as a line and a column, both counted from one, where only a line feed ends
a line.

* `Location.ofPosition` places any integer position; one outside the text counts
  its lines from the nearest part of the text.
-/

namespace TapeProcessor

/-- A place in a text. -/
structure Location where
  /-- The number of characters before the place. -/
  position : Int
  line : Nat
  column : Int
  deriving DecidableEq, Repr

namespace Location

/-- How many of `length` characters lie before `position`. A negative position
counts back from the end of the text, and no position reaches past either end. -/
def cut (length : Nat) (position : Int) : Nat :=
  if position < 0 then (length + position).toNat else min position.toNat length

/-- The number of characters up to the last line feed, that one included. -/
def lineStart (before : List Char) : Nat :=
  before.length - (before.reverse.takeWhile (· ≠ '\n')).length

/-- The place of `position` in a text. The column is measured from the start of
the line with the position as it was given. -/
def ofPosition (text : List Char) (position : Int) : Location :=
  let before := text.take (cut text.length position)
  { position
    line := before.count '\n' + 1
    column := position - lineStart before + 1 }

/-- A position of the text is not cut. -/
theorem cut_natCast {length position : Nat} (h_inside : position ≤ length) :
    cut length (position : Int) = position := by
  rw [cut, if_neg (by omega), Int.toNat_natCast, Nat.min_eq_left h_inside]

end Location

end TapeProcessor
