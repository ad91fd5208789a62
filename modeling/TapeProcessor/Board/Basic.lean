import TapeProcessor.Core.Step
import TapeProcessor.Journal
import TapeProcessor.Program.Violation
import TapeProcessor.Terminal

/-!
# The board

A board holds a core and the terminal at the other end of its link. On each clock
the terminal drives the link, the core steps, and the terminal samples the link,
in this order.

* `Board` is the pair of them, with the size of the loaded image and whether the
  core was reset since.
* `Board.clock` is one clock; the lemmas beside it say what becomes of each part.
* `Refusal` lists the reasons for which an operation of the board is refused;
  `Refusal.kind` says what is at fault.
* `Outcome` is what an operation leaves: its answer or a refusal, the board, and
  the events of the journal.
-/

namespace TapeProcessor

/-- A core with its terminal. -/
structure Board where
  core : Core
  terminal : Terminal
  /-- The number of words of the image loaded last. -/
  imageSize : Nat
  /-- Whether the core was reset after the last load. -/
  booted : Bool

namespace Board

/-- A board around a core that was just made. -/
def new (g : Geometry) : Board := ⟨.new g, .new, 0, false⟩

/-- A board with the given sizes of memories. -/
def ofSizes (codeSize dataSize : Int) : Except SizeError Board :=
  (Geometry.ofSizes codeSize dataSize).map new

/-- One clock: whether an instruction retired, and the board after it. -/
def clock : Board → Bool × Board
  | ⟨core, terminal, imageSize, booted⟩ =>
    -- the core sees what the terminal drives, and the terminal what the core has set
    let link := terminal.drive core.link
    match ({ core with link } : Core).step with
    | (retired, core) => (retired, ⟨core, terminal.sample core.link, imageSize, booted⟩)

/-- The core as it enters a clock, with the link as the terminal drives it. -/
def drivenCore (b : Board) : Core := { b.core with link := b.terminal.drive b.core.link }

@[simp] theorem clock_fst (b : Board) : b.clock.1 = b.drivenCore.step.1 := rfl

@[simp] theorem core_clock (b : Board) : b.clock.2.core = b.drivenCore.step.2 := rfl

@[simp] theorem terminal_clock (b : Board) :
    b.clock.2.terminal = b.terminal.sample b.drivenCore.step.2.link := rfl

@[simp] theorem imageSize_clock (b : Board) : b.clock.2.imageSize = b.imageSize := rfl

@[simp] theorem booted_clock (b : Board) : b.clock.2.booted = b.booted := rfl

end Board

/-- A reason to refuse an operation of the board. -/
inductive Refusal
  /-- A source text is rejected. -/
  | source (text : String) (violation : Violation)
  /-- An image has more words than code memory. -/
  | imageTooLong (words capacity : Nat)
  /-- The initial data has more bytes than data memory. -/
  | dataTooLong (bytes capacity : Nat)
  /-- The core was not reset since the last load. -/
  | notBooted
  deriving DecidableEq, Repr

namespace Refusal

/-- The report of a refusal that is about a program. An image that comes without
its source has no place to report. -/
def diagnostic? : Refusal → Option Diagnostic
  | source text violation => some (violation.diagnose text)
  | imageTooLong words capacity =>
    some
      { category := .programTooLarge
        message := "image is " ++ toString words ++ " words, code memory holds "
          ++ toString capacity
        location := none }
  | dataTooLong .. | notBooted => none

/-- What is at fault when an operation is refused. -/
def kind : Refusal → ErrorKind
  | source _ violation => .program violation.fault.category
  | imageTooLong .. => .program .programTooLarge
  | dataTooLong .. => .value
  | notBooted => .state

/-- A refusal with a report is about a program, in the way that the report says. -/
theorem kind_of_diagnostic? {r : Refusal} {report : Diagnostic}
    (h : r.diagnostic? = some report) : r.kind = .program report.category := by
  cases r with
  | source | imageTooLong =>
    cases h
    rfl
  | dataTooLong | notBooted => cases h

/-- The text of a refusal. -/
def message (r : Refusal) : String :=
  match r with
  | source .. | imageTooLong .. => (r.diagnostic?.map Diagnostic.text).getD ""
  | dataTooLong bytes capacity =>
    "data is " ++ toString bytes ++ " bytes, data memory holds " ++ toString capacity
  | notBooted => "system not booted"

end Refusal

/-- What an operation of the board leaves. -/
structure Outcome (Answer : Type) where
  answer : Except Refusal Answer
  board : Board
  events : List Event

namespace Outcome

variable {Answer Other : Type}

/-- An operation that was carried out. -/
def success (answer : Answer) (board : Board) (events : List Event) : Outcome Answer :=
  ⟨.ok answer, board, events⟩

/-- An operation that was refused. -/
def refused (refusal : Refusal) (board : Board) : Outcome Answer := ⟨.error refusal, board, []⟩

/-- The same outcome with another form of the answer. -/
def map (f : Answer → Other) (o : Outcome Answer) : Outcome Other :=
  ⟨o.answer.map f, o.board, o.events⟩

end Outcome

end TapeProcessor
