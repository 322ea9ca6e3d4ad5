import ApiTypes.Batch
import ApiTypes.CommandLine
import ApiTypes.Context
import ApiTypes.Document.Basic
import ApiTypes.Document.Printer
import ApiTypes.Document.Reader
import ApiTypes.Error.Basic
import ApiTypes.Error.Defect
import ApiTypes.Error.Diagnostic
import ApiTypes.Event
import ApiTypes.Files.Path
import ApiTypes.Files.Tree
import ApiTypes.Generation
import ApiTypes.Import.RelativePath
import ApiTypes.Import.Source
import ApiTypes.Import.Table
import ApiTypes.Kind
import ApiTypes.Label
import ApiTypes.Location
import ApiTypes.Main
import ApiTypes.Module.Basic
import ApiTypes.Module.Member
import ApiTypes.Name.Table
import ApiTypes.Name.Usage
import ApiTypes.Number.Binary64
import ApiTypes.Number.Shortest
import ApiTypes.Phase
import ApiTypes.Plan.Definition
import ApiTypes.Plan.TypeExpr
import ApiTypes.Proofs.Import.Block
import ApiTypes.Proofs.Import.Demand
import ApiTypes.Proofs.Import.Merging
import ApiTypes.Proofs.Import.Queue
import ApiTypes.Proofs.Import.Statements
import ApiTypes.Proofs.Import.Uses
import ApiTypes.Proofs.Module.ImportBlock
import ApiTypes.Proofs.Module.Opening
import ApiTypes.Proofs.Module.OrderIndependence
import ApiTypes.Proofs.Module.Outcome
import ApiTypes.Proofs.Module.Plain
import ApiTypes.Proofs.Module.Program
import ApiTypes.Proofs.Module.Registered
import ApiTypes.Proofs.Module.Registration
import ApiTypes.Proofs.Module.Run
import ApiTypes.Proofs.Module.Settled
import ApiTypes.Proofs.Name.Additions
import ApiTypes.Proofs.Name.Numbered
import ApiTypes.Proofs.Name.Resolution
import ApiTypes.Proofs.Name.Settled
import ApiTypes.Proofs.Plan.Definition
import ApiTypes.Proofs.Plan.Introductions
import ApiTypes.Proofs.Plan.Outline
import ApiTypes.Proofs.Plan.Reading
import ApiTypes.Proofs.Plan.References
import ApiTypes.Proofs.Schema.Generation
import ApiTypes.Proofs.Schema.Imports
import ApiTypes.Proofs.Schema.Plans
import ApiTypes.Proofs.Schema.Scope
import ApiTypes.Proofs.Schema.Spellings
import ApiTypes.Proofs.Text.Safe
import ApiTypes.Proofs.Text.Scan
import ApiTypes.Proofs.Text.Segment
import ApiTypes.Proofs.Traversal
import ApiTypes.SExpr.Basic
import ApiTypes.SExpr.Compact
import ApiTypes.SExpr.Layout
import ApiTypes.Schema.Basic
import ApiTypes.Schema.Dump
import ApiTypes.Schema.Loader
import ApiTypes.Schema.WellTyped
import ApiTypes.Sorting.Merge
import ApiTypes.Sorting.Natural
import ApiTypes.Sorting.Run
import ApiTypes.Sorting.Search
import ApiTypes.Text.Blank
import ApiTypes.Text.Digit
import ApiTypes.Text.DocBlock
import ApiTypes.Text.Literal
import ApiTypes.Text.Printable
import ApiTypes.Text.PropertyKey
import ApiTypes.Text.Quoted
import ApiTypes.Text.Split
import ApiTypes.Proofs.Plan.Writing
import ApiTypes.Proofs.Plan.Safety
import ApiTypes.Proofs.Schema.Text
import ApiTypes.Proofs.Schema.Noninterference
import ApiTypes.Proofs.Schema.Scanning
import ApiTypes.Proofs.Plan.Dump
import ApiTypes.Proofs.SExpr.Reading
import ApiTypes.Proofs.Schema.Dump
import ApiTypes.Proofs.Schema.Hygiene
import ApiTypes.Proofs.Schema.Alphabet
import ApiTypes.Proofs.Text.Exports
import ApiTypes.Proofs.Plan.Exports
import ApiTypes.Proofs.Schema.Exports
import ApiTypes.Proofs.Schema.PublicNames
import ApiTypes.Proofs.Module.Phases
import ApiTypes.Proofs.Module.Rendering
import ApiTypes.Proofs.Module.History
import ApiTypes.Proofs.Grammar.Tree
import ApiTypes.Proofs.Grammar.Unambiguous
import ApiTypes.Proofs.Grammar.Types
import ApiTypes.Proofs.Grammar.Derivation
import ApiTypes.Proofs.Grammar.Compilation
import ApiTypes.Proofs.Files.Place
import ApiTypes.Proofs.Files.Change
import ApiTypes.Proofs.Batch.Job
import ApiTypes.Proofs.Batch.Course
import ApiTypes.Proofs.Batch.Reports
import ApiTypes.Proofs.Batch.Outputs
import ApiTypes.Proofs.Batch.Collisions
import ApiTypes.Proofs.Batch.Growth
import ApiTypes.Proofs.Batch.Composition
import ApiTypes.Proofs.Module.Later
import ApiTypes.Proofs.Plan.Printing
import ApiTypes.Proofs.Plan.Refinement
import ApiTypes.Proofs.Text.Pieces
import ApiTypes.Proofs.Import.Routes
import ApiTypes.Proofs.Import.Identity
import ApiTypes.Proofs.Schema.DocumentForm
import ApiTypes.Proofs.Schema.Loading
import ApiTypes.Proofs.Schema.Checks
import ApiTypes.Proofs.Schema.Rejection
import ApiTypes.Proofs.SExpr.Lexemes
import ApiTypes.Proofs.Document.OneLine
import ApiTypes.Proofs.SExpr.Breaking
import ApiTypes.Proofs.Text.DocBlock
import ApiTypes.Proofs.SExpr.Form
import ApiTypes.Proofs.Text.Literal
import ApiTypes.Proofs.Text.PropertyKey
import ApiTypes.Proofs.Batch.Failures
import ApiTypes.Proofs.Module.Code
import ApiTypes.Proofs.Module.Frozen
import ApiTypes.Proofs.Module.Applications
import ApiTypes.Proofs.Name.Interrupted
import ApiTypes.Proofs.Name.Groups
import ApiTypes.Proofs.Module.Refusals
