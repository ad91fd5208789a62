import TapeProcessor.Board.Load
import TapeProcessor.Board.Run
import TapeProcessor.Core.Action

/-!
# What can be done to a board

`Board.Action` lists the operations of a board, together with those on its core,
its link and its terminal, and `Board.perform` carries one out. A whole session is
a list of actions, each carried out on the board that the one before it left,
whether that was refused or not.
-/

namespace TapeProcessor.Board

/-- Something done to a board. -/
inductive Action
  | load (image data : Array UInt8) (zeroData : Bool)
  | loadSource (source : String) (data : Array UInt8) (zeroData : Bool)
  | boot
  | step
  | run (count : Int)
  | runTo (address limit : Int)
  | runUntilOutput (wanted limit : Int)
  /-- An action on the core alone, past the terminal. -/
  | core (action : Core.Action)
  | link (action : Link.Action)
  | terminal (action : Terminal.Action)
  deriving DecidableEq, Repr

/-- The outcome of an action. -/
def perform (b : Board) : Action → Outcome Reply
  | .load image data zeroData => (b.load image data zeroData).map fun clocks : Nat => .count clocks
  | .loadSource source data zeroData =>
    (b.loadSource source data zeroData).map fun clocks : Nat => .count clocks
  | .boot => b.boot.map fun _ => .done
  | .step => b.step.map .flag
  | .run count => (b.run count).map fun retired : Nat => .count retired
  | .runTo address limit => (b.runTo address limit).map .count
  | .runUntilOutput wanted limit => (b.runUntilOutput wanted limit).map .bytes
  | .core action =>
    let (reply, core) := b.core.perform action
    .success reply { b with core } []
  | .link action =>
    .success .done { b with core := { b.core with link := b.core.link.perform action } } []
  | .terminal action =>
    let (reply, terminal, link) := b.terminal.perform b.core.link action
    .success reply { b with core := { b.core with link }, terminal } []

end TapeProcessor.Board
