import TapeProcessor.Diagnostic
import TapeProcessor.Program.Basic

/-!
# What makes a source text unacceptable

* `Fault` lists the reasons for which a source text is rejected; each has its
  `Fault.category` and its `Fault.message`.
* `Violation` is a fault together with the position it is found at, and
  `Violation.diagnose` the report on it.
-/

namespace TapeProcessor

/-- A reason to reject a source text. -/
inductive Fault
  /-- A loop is opened inside so many others that their jumps alone exceed the
  words there are. -/
  | nestingTooDeep (depth : Nat) (limit : Int)
  /-- A loop is opened and the text ends before it is closed. -/
  | neverClosed
  /-- A loop is closed that was never opened. -/
  | neverOpened
  /-- The body of a loop is too long for its jumps. -/
  | bodyTooLong (words : Nat)
  /-- The image has more words than code memory. -/
  | programTooLong (words : Nat) (capacity : Int)
  deriving DecidableEq, Repr

namespace Fault

/-- The category of a fault. -/
def category : Fault → Category
  | neverClosed | neverOpened => .unmatchedBracket
  | nestingTooDeep .. | bodyTooLong _ | programTooLong .. => .programTooLarge

/-- The text of a fault. -/
def message : Fault → String
  | nestingTooDeep depth limit =>
    "loops nested " ++ toString depth ++ " deep cannot fit in " ++ toString limit ++ " words"
  | neverClosed => "'[' is never closed"
  | neverOpened => "']' without matching '['"
  | bodyTooLong words =>
    "loop body is " ++ toString words ++ " words, jump distance "
      ++ toString (Program.jumpDistance words) ++ " exceeds " ++ toString Program.maxDistance
  | programTooLong words capacity =>
    "program is " ++ toString words ++ " words, code memory holds " ++ toString capacity

end Fault

/-- A fault and the number of characters before it. -/
structure Violation where
  fault : Fault
  position : Nat
  deriving DecidableEq, Repr

/-- The report on a violation found in a source text. -/
def Violation.diagnose (source : String) (v : Violation) : Diagnostic :=
  .ofPosition v.fault.category v.fault.message (some source) v.position

end TapeProcessor
