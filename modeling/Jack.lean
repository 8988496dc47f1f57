import Jack.Main
import Jack.Proofs.FreshLabels
import Jack.Proofs.Lexical.MaximalMunch
import Jack.Proofs.LimitedSinks
import Jack.Proofs.Lookahead
import Jack.Proofs.Machine.Statement
import Jack.Proofs.OperandBounds
import Jack.Proofs.StackDiscipline
import Jack.Proofs.Lexical.Printing
import Jack.Proofs.Layout
import Jack.Proofs.Positions
import Jack.Proofs.Syntax.Renumbering
import Jack.Proofs.Independence
import Jack.Proofs.Scopes
import Jack.Proofs.Decoding
import Jack.Proofs.Schedules.Thread
import Jack.Proofs.Schedules.Pool
import Jack.Proofs.Schedules.Job
import Jack.Proofs.Schedules.FailFast
import Jack.Proofs.Files.Paths
import Jack.Proofs.Files.Trees
import Jack.Proofs.Schedules.AnyOrder
import Jack.Proofs.ControlFlow
import Jack.Proofs.Constants
import Jack.Proofs.ObjectSize
import Jack.Proofs.StringLimits
import Jack.Proofs.Machine.Value
import Jack.Proofs.EntryNames
import Jack.Proofs.LeftParentheses
import Jack.Proofs.Console.Arguments
import Jack.Proofs.Console.Sources
import Jack.Proofs.Console.ExitStatus
import Jack.Proofs.ScannerProgress
import Jack.Proofs.Descent.Plan
import Jack.Proofs.Descent.Measure
import Jack.Proofs.Descent.Calls
import Jack.Proofs.Descent.Moments
