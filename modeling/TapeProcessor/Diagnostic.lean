import TapeProcessor.Text.Location

/-!
# Reports on rejected programs

* `Category` tells the kinds of rejection apart, and `ErrorKind` those of any failure.
* `Diagnostic` is a report: its category, its message and, if it is about a place
  in a source text, that place.
* `Diagnostic.text` puts the place in front of the message.
-/

namespace TapeProcessor

/-- The kind of a rejection. -/
inductive Category
  /-- No more is known than that the program is rejected. -/
  | general
  /-- A bracket lacks its partner. -/
  | unmatchedBracket
  /-- A program, or a loop of it, needs more words than there are. -/
  | programTooLarge
  deriving DecidableEq, Repr

/-- What is at fault when an operation fails. -/
inductive ErrorKind
  /-- A program, which is rejected. -/
  | program (category : Category)
  /-- An argument is out of its range. -/
  | value
  /-- The machine is not in the state that the operation asks for. -/
  | state
  deriving DecidableEq, Repr

/-- A report on a rejected program. -/
structure Diagnostic where
  category : Category
  message : String
  /-- The place the report is about; absent if there is no source text. -/
  location : Option Location
  deriving DecidableEq, Repr

namespace Diagnostic

/-- A report about a position of a source text, or about no text. -/
def ofPosition (category : Category) (message : String) (source : Option String)
    (position : Int) : Diagnostic :=
  ⟨category, message, source.map fun text => Location.ofPosition text.toList position⟩

/-- The report as one line. -/
def text (d : Diagnostic) : String :=
  match d.location with
  | none => d.message
  | some place =>
    "Line " ++ toString place.line ++ ", col " ++ toString place.column ++ ": " ++ d.message

end Diagnostic

end TapeProcessor
