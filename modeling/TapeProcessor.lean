import TapeProcessor.Board.Action
import TapeProcessor.Board.Dump
import TapeProcessor.Text.Latin1
import TapeProcessor.Proofs.Semantics.Structured
import TapeProcessor.Proofs.Program.Place
import TapeProcessor.Proofs.Core.Instruction
import TapeProcessor.Proofs.Source.Walk
import TapeProcessor.Proofs.Source.Lockstep
import TapeProcessor.Proofs.Board.Correctness
import TapeProcessor.Proofs.Session.Move
import TapeProcessor.Proofs.Session.Ledger
import TapeProcessor.Proofs.Session.Conservation
import TapeProcessor.Proofs.Session.Timing
import TapeProcessor.Proofs.Program.Acceptance
import TapeProcessor.Proofs.Source.Brackets
import TapeProcessor.Proofs.Source.FirstViolation
import TapeProcessor.Proofs.Source.Acceptance
import TapeProcessor.Proofs.Image.Layout
import TapeProcessor.Proofs.Image.Listing
import TapeProcessor.Proofs.Image.Inverse
import TapeProcessor.Proofs.Board.Refusals
import TapeProcessor.Proofs.Core.Access
import TapeProcessor.Proofs.Session.Moments
import TapeProcessor.Proofs.Session.Soundness
import TapeProcessor.Proofs.Session.Operations
import TapeProcessor.Proofs.Session.Protocol
import TapeProcessor.Proofs.Session.Signals
import TapeProcessor.Proofs.Session.Reload
import TapeProcessor.Proofs.Core.Course
import TapeProcessor.Proofs.Core.Phases
import TapeProcessor.Proofs.Board.Writing
import TapeProcessor.Proofs.Core.Handshake
import TapeProcessor.Proofs.Session.Standstill
import TapeProcessor.Proofs.Session.Until
import TapeProcessor.Proofs.Source.Comments
import TapeProcessor.Proofs.Source.Composition
import TapeProcessor.Proofs.Listing.Columns
import TapeProcessor.Proofs.Core.Disassembly
import TapeProcessor.Proofs.Listing.Cover
import TapeProcessor.Proofs.Board.Dump
import TapeProcessor.Proofs.Image.Targets
import TapeProcessor.Proofs.Board.Listing
import TapeProcessor.Proofs.Source.Locations
import TapeProcessor.Proofs.Core.Recoding
import TapeProcessor.Proofs.Image.UnusedBits
import TapeProcessor.Proofs.Core.Rotation
import TapeProcessor.Proofs.Semantics.Passes
import TapeProcessor.Proofs.Core.Passes
import TapeProcessor.Proofs.Core.Sizes
import TapeProcessor.Proofs.Board.Copying
import TapeProcessor.Proofs.Core.LoadMode
import TapeProcessor.Proofs.Source.Cursor
import TapeProcessor.Proofs.Source.Descent
