import SoqlAssist.Text.Blank
import SoqlAssist.Text.Lines
import SoqlAssist.Text.Fold
import SoqlAssist.Decimal.Shortest
import SoqlAssist.Data
import SoqlAssist.Data.Scalar
import SoqlAssist.Data.Form
import SoqlAssist.Data.Flow
import SoqlAssist.Token.Kind
import SoqlAssist.Token.Basic
import SoqlAssist.Token.Lexer
import SoqlAssist.Document
import SoqlAssist.Grammar.Rule
import SoqlAssist.Grammar.Problem
import SoqlAssist.Grammar.Plan
import SoqlAssist.Grammar.Rank
import SoqlAssist.Tree.Basic
import SoqlAssist.Tree.Build
import SoqlAssist.Tree.Walk
import SoqlAssist.Query.Reader
import SoqlAssist.Query.Parsed
import SoqlAssist.Query.Scope
import SoqlAssist.Query.Analysis
import SoqlAssist.Query.Cursor
import SoqlAssist.Query.Lookaround
import SoqlAssist.Catalog.FieldType
import SoqlAssist.Catalog.Function
import SoqlAssist.Catalog.Operator
import SoqlAssist.Catalog.DateRange
import SoqlAssist.Settings
import SoqlAssist.Diagnostic
import SoqlAssist.Completion.Item
import SoqlAssist.Completion.Rendered
import SoqlAssist.Completion.Candidate
import SoqlAssist.Completion.Context
import SoqlAssist.Completion.Keyword
import SoqlAssist.Completion.Literal
import SoqlAssist.Completion.Site
import SoqlAssist.Completion.Engine
import SoqlAssist.Scenario.Marker
import SoqlAssist.Scenario.Script
import SoqlAssist.Scenario.Case
import SoqlAssist.Scenario.Check
import SoqlAssist.Scenario.Sample
import SoqlAssist.Proofs.Grammar.Phrase
import SoqlAssist.Proofs.Grammar.Run
import SoqlAssist.Proofs.Grammar.Outline
import SoqlAssist.Proofs.Query.Reader
import SoqlAssist.Proofs.Query.Progress
import SoqlAssist.Proofs.Grammar.Soundness
import SoqlAssist.Proofs.Grammar.Completeness
import SoqlAssist.Proofs.Grammar.Acceptance
import SoqlAssist.Proofs.Tree.Forest
import SoqlAssist.Proofs.Tree.Layout
import SoqlAssist.Proofs.Tree.Order
import SoqlAssist.Proofs.Tree.Span
import SoqlAssist.Proofs.Grammar.Growth
import SoqlAssist.Proofs.Grammar.Coverage
import SoqlAssist.Proofs.Query.Leaves
import SoqlAssist.Proofs.Grammar.Content
import SoqlAssist.Proofs.Grammar.Shape
import SoqlAssist.Proofs.Query.Scope
import SoqlAssist.Proofs.Query.Enclosure
import SoqlAssist.Proofs.Query.Nesting
import SoqlAssist.Proofs.Grammar.Pace
import SoqlAssist.Proofs.Query.Condition
import SoqlAssist.Proofs.Query.WhereField
import SoqlAssist.Proofs.Text.Lines
import SoqlAssist.Proofs.Token.Extent
import SoqlAssist.Proofs.Token.Stream
import SoqlAssist.Proofs.Token.Place
import SoqlAssist.Proofs.Query.Ending
import SoqlAssist.Proofs.Tree.Relocation
import SoqlAssist.Proofs.Query.Visibility
import SoqlAssist.Proofs.Grammar.Source
import SoqlAssist.Proofs.Query.Record
import SoqlAssist.Proofs.Query.Ownership
import SoqlAssist.Proofs.Text.Header
import SoqlAssist.Proofs.Text.Partition
import SoqlAssist.Proofs.Query.Diagnostics
import SoqlAssist.Proofs.Query.Cursor
import SoqlAssist.Proofs.Query.Errors
import SoqlAssist.Proofs.Query.Spans
import SoqlAssist.Proofs.Token.Spelling
import SoqlAssist.Proofs.Token.Writing
import SoqlAssist.Proofs.Grammar.Operator
import SoqlAssist.Proofs.Query.Operator
import SoqlAssist.Proofs.Grammar.Path
import SoqlAssist.Proofs.Grammar.Recovery
import SoqlAssist.Proofs.Query.Recovery
import SoqlAssist.Proofs.Tree.WellFormed
import SoqlAssist.Proofs.Tree.Traversal
import SoqlAssist.Proofs.Query.Path
import SoqlAssist.Proofs.Query.NearestCondition
import SoqlAssist.Proofs.Completion.Keyword
import SoqlAssist.Proofs.Completion.Origin
import SoqlAssist.Proofs.Completion.Nesting
import SoqlAssist.Proofs.Completion.ObjectName
import SoqlAssist.Proofs.Completion.Operator
import SoqlAssist.Proofs.Completion.Insertion
import SoqlAssist.Proofs.Token.Stability
import SoqlAssist.Proofs.Completion.Predictor
import SoqlAssist.Proofs.Data.Exchange
import SoqlAssist.Proofs.Completion.Rendered
import SoqlAssist.Proofs.Completion.Lookaround
import SoqlAssist.Proofs.Settings
