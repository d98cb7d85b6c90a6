import ClassicalPlanning.CommandLine.Execution
import ClassicalPlanning.CommandLine.Options
import ClassicalPlanning.CraneYard
import ClassicalPlanning.Fault
import ClassicalPlanning.Json.Basic
import ClassicalPlanning.Json.Codec
import ClassicalPlanning.Json.Holdable
import ClassicalPlanning.Json.Magnitude
import ClassicalPlanning.Json.Printer
import ClassicalPlanning.Json.Reader
import ClassicalPlanning.Json.Record
import ClassicalPlanning.Language.Action
import ClassicalPlanning.Language.Domain
import ClassicalPlanning.Language.Literal
import ClassicalPlanning.Language.Predicate
import ClassicalPlanning.Language.Problem
import ClassicalPlanning.Language.Term
import ClassicalPlanning.Main
import ClassicalPlanning.Matching.Basic
import ClassicalPlanning.Matching.Grounding
import ClassicalPlanning.Matching.Selection
import ClassicalPlanning.Matching.Substitution
import ClassicalPlanning.Progression
import ClassicalPlanning.Proofs.CraneYard.Command
import ClassicalPlanning.Proofs.CraneYard.Endless
import ClassicalPlanning.Proofs.CraneYard.Groundings
import ClassicalPlanning.Proofs.CraneYard.Layout
import ClassicalPlanning.Proofs.CraneYard.Operation
import ClassicalPlanning.Proofs.CraneYard.Refinement
import ClassicalPlanning.Proofs.Json.RoundTrip
import ClassicalPlanning.Proofs.Json.Spelling
import ClassicalPlanning.Proofs.Json.Token
import ClassicalPlanning.Proofs.Language.Predicate
import ClassicalPlanning.Proofs.Language.Problem
import ClassicalPlanning.Proofs.Matching.Anonymity
import ClassicalPlanning.Proofs.Matching.Arrangement
import ClassicalPlanning.Proofs.Matching.Bindings
import ClassicalPlanning.Proofs.Matching.Conflict
import ClassicalPlanning.Proofs.Matching.Exactness
import ClassicalPlanning.Proofs.Matching.FirstArrangement
import ClassicalPlanning.Proofs.Matching.Fit
import ClassicalPlanning.Proofs.Matching.Likeness
import ClassicalPlanning.Proofs.Matching.Neutrality
import ClassicalPlanning.Proofs.Matching.Positive
import ClassicalPlanning.Proofs.Matching.Reading
import ClassicalPlanning.Proofs.Matching.Renaming
import ClassicalPlanning.Proofs.Matching.Selection
import ClassicalPlanning.Proofs.Matching.Solution
import ClassicalPlanning.Proofs.Outcome
import ClassicalPlanning.Proofs.Search.ActionOrder
import ClassicalPlanning.Proofs.Search.Addition
import ClassicalPlanning.Proofs.Search.Admission
import ClassicalPlanning.Proofs.Search.Anonymity
import ClassicalPlanning.Proofs.Search.Budget
import ClassicalPlanning.Proofs.Search.Coherence
import ClassicalPlanning.Proofs.Search.Course
import ClassicalPlanning.Proofs.Search.Decision
import ClassicalPlanning.Proofs.Search.Endless
import ClassicalPlanning.Proofs.Search.Events
import ClassicalPlanning.Proofs.Search.Execution
import ClassicalPlanning.Proofs.Search.Faults
import ClassicalPlanning.Proofs.Search.FurtherFacts
import ClassicalPlanning.Proofs.Search.InStep
import ClassicalPlanning.Proofs.Search.Independence
import ClassicalPlanning.Proofs.Search.InitialOrder
import ClassicalPlanning.Proofs.Search.Interchange
import ClassicalPlanning.Proofs.Search.LevelCap
import ClassicalPlanning.Proofs.Search.NoPlan
import ClassicalPlanning.Proofs.Search.Optimality
import ClassicalPlanning.Proofs.Search.Progress
import ClassicalPlanning.Proofs.Search.Provenance
import ClassicalPlanning.Proofs.Search.Renaming
import ClassicalPlanning.Proofs.Search.Run
import ClassicalPlanning.Proofs.Search.Statistics
import ClassicalPlanning.Proofs.Search.Tally
import ClassicalPlanning.Proofs.Search.Termination
import ClassicalPlanning.Proofs.Search.Traversal
import ClassicalPlanning.Proofs.Search.Tree
import ClassicalPlanning.Proofs.Search.Withholding
import ClassicalPlanning.Proofs.Settings.Layers
import ClassicalPlanning.Proofs.State.Content
import ClassicalPlanning.Proofs.State.Removal
import ClassicalPlanning.Proofs.State.Replacement
import ClassicalPlanning.Proofs.Text.LiteralText
import ClassicalPlanning.Proofs.Text.Number
import ClassicalPlanning.Proofs.Text.PddlReader
import ClassicalPlanning.Proofs.Text.PddlTree
import ClassicalPlanning.Proofs.Text.PlanText
import ClassicalPlanning.Proofs.Text.Readable
import ClassicalPlanning.Proofs.Text.Sexp
import ClassicalPlanning.Proofs.Typing
import ClassicalPlanning.Proofs.Walk
import ClassicalPlanning.Search.BreadthFirst
import ClassicalPlanning.Search.Event
import ClassicalPlanning.Search.Limits
import ClassicalPlanning.Search.Node
import ClassicalPlanning.Search.Plan
import ClassicalPlanning.Search.Queue
import ClassicalPlanning.Settings.Environment
import ClassicalPlanning.Settings.File
import ClassicalPlanning.Text.Binary64
import ClassicalPlanning.Text.Blank
import ClassicalPlanning.Text.Decimal
import ClassicalPlanning.Text.Message
import ClassicalPlanning.Text.Pddl
import ClassicalPlanning.Text.PlanText
import ClassicalPlanning.Text.Word64
import ClassicalPlanning.Toml.Basic
import ClassicalPlanning.Toml.Document
import ClassicalPlanning.Toml.Lexical
import ClassicalPlanning.Toml.Scalar
