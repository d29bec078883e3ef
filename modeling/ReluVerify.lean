import ReluVerify.Advisory.Basic
import ReluVerify.Advisory.Encounter
import ReluVerify.Advisory.Property
import ReluVerify.Campaign.Config
import ReluVerify.Campaign.ConfigText
import ReluVerify.Campaign.Failure
import ReluVerify.Campaign.Record
import ReluVerify.Campaign.ReportText
import ReluVerify.Campaign.Run
import ReluVerify.Campaign.Store
import ReluVerify.Command.Arguments
import ReluVerify.Command.Run
import ReluVerify.Constraint.Bounds
import ReluVerify.Constraint.Equation
import ReluVerify.Constraint.Inequality
import ReluVerify.Constraint.Network
import ReluVerify.Constraint.Relu
import ReluVerify.Engine.Problem
import ReluVerify.Engine.Reference
import ReluVerify.Engine.Search
import ReluVerify.Engine.Simplex
import ReluVerify.Json.Basic
import ReluVerify.Json.Layout
import ReluVerify.Json.Number
import ReluVerify.Json.Reader
import ReluVerify.Layered.Basic
import ReluVerify.Layered.Encoding
import ReluVerify.Layered.Reader
import ReluVerify.Main
import ReluVerify.Number.Binary64
import ReluVerify.Number.Layout
import ReluVerify.Number.Reader
import ReluVerify.Number.Rounding
import ReluVerify.Number.Scalar
import ReluVerify.Number.Shortest
import ReluVerify.Query.Basic
import ReluVerify.Query.Compile
import ReluVerify.Query.Tableau
import ReluVerify.Solve
import ReluVerify.Storage.FileTree
import ReluVerify.Storage.Files
import ReluVerify.Storage.Path
import ReluVerify.Text.Blank
import ReluVerify.Text.Hidden
import ReluVerify.Text.Quoted
import ReluVerify.VarMap
import ReluVerify.Proofs.Advisories
import ReluVerify.Proofs.Assignment
import ReluVerify.Proofs.Bounds
import ReluVerify.Proofs.Campaign
import ReluVerify.Proofs.Candidate
import ReluVerify.Proofs.Compile
import ReluVerify.Proofs.Exact
import ReluVerify.Proofs.Layered
import ReluVerify.Proofs.Question
import ReluVerify.Proofs.Reference
import ReluVerify.Proofs.Refinement
import ReluVerify.Proofs.Relaxation
import ReluVerify.Proofs.Search
import ReluVerify.Proofs.Simplex.Assembly
import ReluVerify.Proofs.Simplex.Check
import ReluVerify.Proofs.Simplex.Combination
import ReluVerify.Proofs.Simplex.Elimination
import ReluVerify.Proofs.Simplex.Infeasible
import ReluVerify.Proofs.Simplex.Recurrence
import ReluVerify.Proofs.Simplex.Polling
import ReluVerify.Proofs.Simplex.Run
import ReluVerify.Proofs.Simplex.SmallestIndex
import ReluVerify.Proofs.Simplex.Tableau
import ReluVerify.Proofs.Simplex.Turn
import ReluVerify.Proofs.Simplex.Values
import ReluVerify.Proofs.Step
import ReluVerify.Proofs.Tableau
import ReluVerify.Proofs.Termination
import ReluVerify.Proofs.Unsat
import ReluVerify.Proofs.Solutions
import ReluVerify.Proofs.Splitting
import ReluVerify.Proofs.Simplex.Triangular
import ReluVerify.Proofs.Staged
import ReluVerify.Proofs.Propagation
import ReluVerify.Proofs.Passes
import ReluVerify.Proofs.Evaluation
import ReluVerify.Proofs.Drift
import ReluVerify.Proofs.Approximate
import ReluVerify.Proofs.Replay
import ReluVerify.Proofs.Extension
import ReluVerify.Proofs.Reading
import ReluVerify.Proofs.Format
import ReluVerify.Proofs.Parsing
import ReluVerify.Proofs.Trace
import ReluVerify.Proofs.Visits
import ReluVerify.Proofs.Protocol
import ReluVerify.Proofs.Maintained
import ReluVerify.Proofs.Storage
import ReluVerify.Proofs.Sessions
import ReluVerify.Proofs.History
import ReluVerify.Proofs.Results
import ReluVerify.Proofs.HalfSpaces
import ReluVerify.Proofs.Region
import ReluVerify.Proofs.Simplex.Separation
import ReluVerify.Proofs.Simplex.Representation
import ReluVerify.Proofs.Edits
import ReluVerify.Proofs.Rows
import ReluVerify.Proofs.Faults
import ReluVerify.Proofs.Independence
import ReluVerify.Proofs.Pins
import ReluVerify.Proofs.Plan
import ReluVerify.Proofs.Consumption
import ReluVerify.Proofs.Shape
import ReluVerify.Proofs.Wiring
import ReluVerify.Proofs.Declared
import ReluVerify.Proofs.Kept
import ReluVerify.Proofs.Lookahead
import ReluVerify.Proofs.SearchTree
import ReluVerify.Proofs.Settled
import ReluVerify.Proofs.Places
import ReluVerify.Proofs.Slacks
import ReluVerify.Proofs.Refusal
