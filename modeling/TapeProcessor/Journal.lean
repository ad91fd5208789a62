/-!
# The journal

Loading and running a machine leaves a journal for those who operate it. Each
entry is an event that happened; its severity, the part of the machine it comes
from and its text follow from the event.

* `Event` lists the events.
* `Event.severity`, `Event.origin` and `Event.text` are what is shown of one.
-/

namespace TapeProcessor

/-- How much an event matters. -/
inductive Severity
  | debug
  | info
  | warning
  deriving DecidableEq, Repr

/-- The name of a severity. -/
def Severity.name : Severity → String
  | .debug => "DEBUG"
  | .info => "INFO"
  | .warning => "WARNING"

/-- The part of the machine an event comes from. -/
inductive Origin
  | compiler
  | board
  deriving DecidableEq, Repr

/-- Something that happened. -/
inductive Event
  /-- A source text was turned into an image. -/
  | compiled (characters words : Nat)
  /-- A source text was rejected with this report. -/
  | compileFailed (report : String)
  /-- An image and the data cells were written. -/
  | loaded (words cells clocks : Nat)
  /-- The reset line was pulsed. -/
  | booted
  /-- A run ended with less output than was waited for. -/
  | outputShort (received : Nat) (wanted clocks : Int)
  deriving DecidableEq, Repr

namespace Event

/-- How much the event matters. -/
def severity : Event → Severity
  | compiled .. | compileFailed _ | booted => .debug
  | loaded .. => .info
  | outputShort .. => .warning

/-- Where the event comes from. -/
def origin : Event → Origin
  | compiled .. | compileFailed _ => .compiler
  | loaded .. | booted | outputShort .. => .board

/-- The text of the event. -/
def text : Event → String
  | compiled characters words =>
    "compiled " ++ toString characters ++ " source chars into " ++ toString words ++ " words"
  | compileFailed report => "compile failed: " ++ report
  | loaded words cells clocks =>
    "loaded " ++ toString words ++ " code words and " ++ toString cells ++ " data cells in "
      ++ toString clocks ++ " steps"
  | booted => "boot pulse"
  | outputShort received wanted clocks =>
    "only " ++ toString received ++ " of " ++ toString wanted ++ " output bytes after "
      ++ toString clocks ++ " steps"

end Event

end TapeProcessor
