import TapeProcessor.Board.Basic
import TapeProcessor.Core.Dump
import TapeProcessor.Listing

/-!
# The state of a board as text

`Board.dump` shows the core, the counters, the terminal and, if an image is
loaded, a listing of it in which the current instruction is marked.
-/

namespace TapeProcessor.Board

/-- The lines of the listing of the loaded image. -/
def listing (b : Board) : Array Line :=
  (Listing.lines b.core.code.cells 0 b.imageSize b.core.code.size).getD #[]

/-- The line that shows the counters. -/
def dumpCounters (b : Board) : String :=
  "  Cycles: " ++ toString b.core.cycles ++ "  Stalls: " ++ toString b.core.stalls
    ++ "  Booted: " ++ Channel.flagText b.booted

/-- The line that shows the terminal. -/
def dumpTerminal (b : Board) : String :=
  "  TX buf=" ++ toString b.terminal.received.size ++ " RX buf="
    ++ toString b.terminal.pending.length ++ " tx_ready=" ++ Core.digitOf b.terminal.accepting

/-- The lines of the loaded image, each behind its marker. -/
def dumpCode (b : Board) : List String :=
  if b.imageSize = 0 then []
  else "" :: "=== Code ===" :: b.listing.toList.map (Line.renderMarked b.core.ip)

/-- The state of the board, line by line. -/
def dump (b : Board) : List String :=
  "=== Core ===" :: b.core.dump
    ++ [b.dumpCounters, "", "=== UART ===", b.dumpTerminal]
    ++ b.dumpCode

end TapeProcessor.Board
