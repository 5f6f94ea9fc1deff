import Arbor.Concrete.Diagnostics
import Arbor.Concrete.Tree
import Arbor.Fault
import Arbor.Fields
import Arbor.Heap.Basic
import Arbor.Language
import Arbor.Literal.Escape
import Arbor.Literal.Number
import Arbor.Lowering.Export
import Arbor.Lowering.Expression
import Arbor.Lowering.Filler
import Arbor.Lowering.Generic
import Arbor.Lowering.Jsx
import Arbor.Lowering.Member
import Arbor.Lowering.Program
import Arbor.Lowering.Rule
import Arbor.Lowering.Site
import Arbor.Lowering.Statement
import Arbor.Number.Binary64
import Arbor.Number.Integer
import Arbor.Number.Shortest
import Arbor.Parsed
import Arbor.Proofs.Actions
import Arbor.Proofs.Concrete.Findings
import Arbor.Proofs.Concrete.Tree
import Arbor.Proofs.Fields.Enumeration
import Arbor.Proofs.Heap.Layout
import Arbor.Proofs.Heap.Load
import Arbor.Proofs.Heap.Parts
import Arbor.Proofs.Heap.Slot
import Arbor.Proofs.Literal.Escape
import Arbor.Proofs.Literal.Integers
import Arbor.Proofs.Literal.Tokens
import Arbor.Proofs.Lowering.Behaviour
import Arbor.Proofs.Lowering.Chains
import Arbor.Proofs.Lowering.Drawn
import Arbor.Proofs.Lowering.Elements
import Arbor.Proofs.Lowering.Elisions
import Arbor.Proofs.Lowering.Expressions
import Arbor.Proofs.Lowering.Filling
import Arbor.Proofs.Lowering.Gathered
import Arbor.Proofs.Lowering.Grammar
import Arbor.Proofs.Lowering.Imports
import Arbor.Proofs.Lowering.Kept
import Arbor.Proofs.Lowering.Outcome
import Arbor.Proofs.Lowering.Patterns
import Arbor.Proofs.Lowering.Places
import Arbor.Proofs.Lowering.Pruning
import Arbor.Proofs.Lowering.Reading
import Arbor.Proofs.Lowering.Records
import Arbor.Proofs.Lowering.Rules
import Arbor.Proofs.Lowering.Seating
import Arbor.Proofs.Lowering.Sequences
import Arbor.Proofs.Lowering.Statements
import Arbor.Proofs.Lowering.Surveyed
import Arbor.Proofs.Lowering.Templates
import Arbor.Proofs.Number.Digits
import Arbor.Proofs.Outcomes
import Arbor.Proofs.Parsed
import Arbor.Proofs.Scope.Ancestry
import Arbor.Proofs.Scope.Binding
import Arbor.Proofs.Scope.Counters
import Arbor.Proofs.Scope.Environments
import Arbor.Proofs.Scope.Filing
import Arbor.Proofs.Scope.Keeping
import Arbor.Proofs.Scope.Keys
import Arbor.Proofs.Scope.Live
import Arbor.Proofs.Scope.Locality
import Arbor.Proofs.Scope.Names
import Arbor.Proofs.Scope.Order
import Arbor.Proofs.Scope.Positions
import Arbor.Proofs.Scope.Records
import Arbor.Proofs.Scope.Runs
import Arbor.Proofs.Scope.Scopings
import Arbor.Proofs.Scope.Shape
import Arbor.Proofs.Scope.Trackable
import Arbor.Proofs.Settings.Loading
import Arbor.Proofs.Settings.Nearest
import Arbor.Proofs.Settings.Paths
import Arbor.Proofs.Text.Pieces
import Arbor.Proofs.Text.Utf8
import Arbor.Proofs.Value.Binds
import Arbor.Proofs.Value.Grouping
import Arbor.Proofs.Value.Occurrences
import Arbor.Proofs.Value.Shown
import Arbor.Proofs.Value.Tidy
import Arbor.Proofs.Walk.Abreast
import Arbor.Proofs.Walk.Along
import Arbor.Proofs.Walk.Attaching
import Arbor.Proofs.Walk.Balance
import Arbor.Proofs.Walk.Changes
import Arbor.Proofs.Walk.Contents
import Arbor.Proofs.Walk.Editing
import Arbor.Proofs.Walk.Frame
import Arbor.Proofs.Walk.FreeNames
import Arbor.Proofs.Walk.Lowered
import Arbor.Proofs.Walk.Malformed
import Arbor.Proofs.Walk.Nesting
import Arbor.Proofs.Walk.Nodes
import Arbor.Proofs.Walk.Notices
import Arbor.Proofs.Walk.Observing
import Arbor.Proofs.Walk.Recording
import Arbor.Proofs.Walk.Reentry
import Arbor.Proofs.Walk.Refinement
import Arbor.Proofs.Walk.Replay
import Arbor.Proofs.Walk.Resurrection
import Arbor.Proofs.Walk.Rewriting
import Arbor.Proofs.Walk.Route
import Arbor.Proofs.Walk.Scoping
import Arbor.Proofs.Walk.Simulation
import Arbor.Proofs.Walk.SourceOrder
import Arbor.Proofs.Walk.Steps
import Arbor.Proofs.Walk.Termination
import Arbor.Proofs.Walk.Tour
import Arbor.Proofs.Walk.Visits
import Arbor.Scope.Binding
import Arbor.Scope.Path
import Arbor.Scope.Pattern
import Arbor.Scope.Role
import Arbor.Scope.Tracker
import Arbor.Settings.Basic
import Arbor.Settings.Files
import Arbor.Text.Basic
import Arbor.Text.Blank
import Arbor.Text.Digit
import Arbor.Text.Printable
import Arbor.Text.Quoted
import Arbor.Text.Ranges
import Arbor.Text.Uppercase
import Arbor.Text.Utf8
import Arbor.Value.Basic
import Arbor.Value.Display
import Arbor.Walk.Request
import Arbor.Walk.Source
import Arbor.Walk.Undeclared
import Arbor.Walk.Walker
