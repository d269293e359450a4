import TaskFarm.Highlight
import TaskFarm.Main
import TaskFarm.Proofs.Channel
import TaskFarm.Proofs.Decimal.Finite
import TaskFarm.Proofs.Decimal.Whole
import TaskFarm.Proofs.Decimal.Written
import TaskFarm.Proofs.Exchange.Account
import TaskFarm.Proofs.Exchange.Carrying
import TaskFarm.Proofs.Exchange.Closing
import TaskFarm.Proofs.Exchange.Content
import TaskFarm.Proofs.Exchange.Deals
import TaskFarm.Proofs.Exchange.Fifo
import TaskFarm.Proofs.Exchange.Journal
import TaskFarm.Proofs.Exchange.Patience
import TaskFarm.Proofs.Exchange.Routing
import TaskFarm.Proofs.Exchange.Sound
import TaskFarm.Proofs.Exchange.Steps
import TaskFarm.Proofs.Exchange.Trip
import TaskFarm.Proofs.Exchange.Turns
import TaskFarm.Proofs.Exchange.Whereabouts
import TaskFarm.Proofs.Expr.Acceptance
import TaskFarm.Proofs.Expr.Blame
import TaskFarm.Proofs.Expr.Cutting
import TaskFarm.Proofs.Expr.Evaluation
import TaskFarm.Proofs.Expr.Extent
import TaskFarm.Proofs.Expr.Height
import TaskFarm.Proofs.Expr.Infix
import TaskFarm.Proofs.Expr.Kinship
import TaskFarm.Proofs.Expr.Lexeme
import TaskFarm.Proofs.Expr.Lexing
import TaskFarm.Proofs.Expr.Listing
import TaskFarm.Proofs.Expr.Matching
import TaskFarm.Proofs.Expr.Minimal
import TaskFarm.Proofs.Expr.Nesting
import TaskFarm.Proofs.Expr.Offence
import TaskFarm.Proofs.Expr.Passes
import TaskFarm.Proofs.Expr.Placing
import TaskFarm.Proofs.Expr.Printing
import TaskFarm.Proofs.Expr.Reordering
import TaskFarm.Proofs.Expr.Reprint
import TaskFarm.Proofs.Expr.Shape
import TaskFarm.Proofs.Expr.Slicing
import TaskFarm.Proofs.Expr.Spacing
import TaskFarm.Proofs.Expr.Span
import TaskFarm.Proofs.Farm.Answers
import TaskFarm.Proofs.Farm.Custody
import TaskFarm.Proofs.Farm.Deals
import TaskFarm.Proofs.Farm.Diary
import TaskFarm.Proofs.Farm.Duty
import TaskFarm.Proofs.Farm.Elapsed
import TaskFarm.Proofs.Farm.Entries
import TaskFarm.Proofs.Farm.Errand
import TaskFarm.Proofs.Farm.Evaluation
import TaskFarm.Proofs.Farm.Pace
import TaskFarm.Proofs.Farm.Records
import TaskFarm.Proofs.Farm.Sound
import TaskFarm.Proofs.Farm.Steps
import TaskFarm.Proofs.Farm.Strides
import TaskFarm.Proofs.Farm.Timeline
import TaskFarm.Proofs.Farm.Waiting
import TaskFarm.Proofs.Highlight
import TaskFarm.Proofs.Ledger
import TaskFarm.Proofs.Report.Colour
import TaskFarm.Proofs.Report.Lines
import TaskFarm.Proofs.Report.Masking
import TaskFarm.Proofs.Report.Pointing
import TaskFarm.Proofs.Settings
import TaskFarm.Proofs.Shell.History
import TaskFarm.Proofs.Shell.Showing
import TaskFarm.Proofs.Simulation.Solo
import TaskFarm.Proofs.Simulation.Timetable
import TaskFarm.Proofs.Store.Conversation
import TaskFarm.Proofs.Store.History
import TaskFarm.Proofs.Store.Refinement
import TaskFarm.Proofs.Text.Replacing
import TaskFarm.Proofs.Walk.Depth
import TaskFarm.Proofs.Walk.Effort
import TaskFarm.Proofs.Walk.Evaluation
import TaskFarm.Proofs.Walk.Log
import TaskFarm.Proofs.Walk.Outing
import TaskFarm.Proofs.Walk.Reading
import TaskFarm.Proofs.Walk.Refinement
import TaskFarm.Proofs.Walk.Table
import TaskFarm.Proofs.Walk.Tour
import TaskFarm.Proofs.Walk.Visits
import TaskFarm.Proofs.Wire.Identifier
import TaskFarm.Proofs.Wire.Reader
import TaskFarm.Proofs.Wire.RoundTrip
import TaskFarm.Simulation.Rehearsal
import TaskFarm.Simulation.Shift
import TaskFarm.Simulation.Trial
import TaskFarm.Simulation.Workday
import TaskFarm.Wire.Codec
