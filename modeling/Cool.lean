import Cool.Analysis
import Cool.Builtin
import Cool.Check.Class
import Cool.Check.Context
import Cool.Check.Expr
import Cool.Check.Walk
import Cool.ClassTable.Basic
import Cool.ClassTable.Build
import Cool.Command.Options
import Cool.Command.Run
import Cool.Compilation
import Cool.Conformance
import Cool.Diagnostic.Basic
import Cool.Diagnostic.Collector
import Cool.Diagnostic.Defect
import Cool.Fault
import Cool.FeatureTable.Basic
import Cool.FeatureTable.Build
import Cool.Grammar.Expr
import Cool.Grammar.Parser
import Cool.Grammar.Program
import Cool.Main
import Cool.Proofs.Hierarchy.Chain
import Cool.Proofs.Hierarchy.Declared
import Cool.Proofs.Hierarchy.Walk
import Cool.Proofs.Tree.Notes
import Cool.Report.Notice
import Cool.Report.Reporter
import Cool.Report.Snippet
import Cool.Scope
import Cool.Source.Lines
import Cool.Source.Span
import Cool.Text.Layout
import Cool.Text.Quoted
import Cool.Token.Cursor
import Cool.Token.Kind
import Cool.Token.Lexeme
import Cool.Token.Listing
import Cool.Token.Literal
import Cool.Token.Lookahead
import Cool.Token.Trivia
import Cool.Tree.Expr
import Cool.Tree.Outline
import Cool.Tree.Program
import Cool.Tree.Record
import Cool.Ty
import Cool.Proofs.Hierarchy.Built
import Cool.Proofs.Hierarchy.Order
import Cool.Proofs.Hierarchy.Visits
import Cool.Proofs.Diagnosed
import Cool.Proofs.Signature.Class
import Cool.Proofs.Signature.Built
import Cool.Proofs.Signature.World
import Cool.Proofs.Typing.Rules
import Cool.Proofs.Typing.Check
import Cool.Proofs.Collector
import Cool.Proofs.Typing.Checker
import Cool.Proofs.Analysis.Run
import Cool.Proofs.Analysis.Erase
import Cool.Proofs.Analysis.Limit
import Cool.Proofs.Typing.Annotated
import Cool.Proofs.Analysis.Tiers
import Cool.Proofs.Analysis.Annotation
import Cool.Proofs.Typing.Refine
import Cool.Proofs.Typing.Heir
import Cool.Proofs.Signature.Attributes
import Cool.Proofs.Signature.Heir
import Cool.Proofs.Analysis.Heir
import Cool.Proofs.Grammar.Raw
import Cool.Proofs.Hierarchy.Resolved
import Cool.Proofs.Hierarchy.Semilattice
import Cool.Proofs.Signature.Override
import Cool.Proofs.Tree.Printed
import Cool.Proofs.Token.Spelling
import Cool.Proofs.Grammar.Reads
import Cool.Proofs.Grammar.Levels
import Cool.Proofs.Grammar.Reread
import Cool.Proofs.Grammar.RoundTrip
import Cool.Proofs.Grammar.Takes
import Cool.Proofs.Tree.Written
import Cool.Proofs.Grammar.Written
import Cool.Proofs.Token.Spelled
import Cool.Proofs.Grammar.Tokens
import Cool.Proofs.Grammar.Calls
import Cool.Proofs.Grammar.Traced
import Cool.Proofs.Grammar.Descent
import Cool.Proofs.Grammar.Halts
import Cool.Proofs.Source.Bytes
import Cool.Proofs.Source.Lines
import Cool.Proofs.Source.Search
import Cool.Proofs.Token.Trivia
import Cool.Proofs.Token.Tiling
import Cool.Proofs.Hierarchy.Cycles
import Cool.Proofs.Hierarchy.Marking
import Cool.Proofs.Hierarchy.Permuted
import Cool.Proofs.Signature.Agree
import Cool.Proofs.Signature.Rebuilt
import Cool.Proofs.Typing.Agree
import Cool.Proofs.Analysis.Agree
import Cool.Proofs.Analysis.Reports
import Cool.Proofs.Analysis.Order
import Cool.Proofs.Analysis.Permuted
import Cool.Proofs.Analysis.Appended
import Cool.Proofs.Token.Lossless
import Cool.Proofs.Token.Separated
import Cool.Proofs.Typing.Queries
import Cool.Proofs.Typing.Known
import Cool.Proofs.Analysis.Known
import Cool.Proofs.Signature.Mended
import Cool.Proofs.Typing.Mended
import Cool.Proofs.Analysis.Mended
import Cool.Proofs.Compilation
import Cool.Proofs.Command
import Cool.Proofs.Joined
import Cool.Proofs.Analysis.Structural
import Cool.Proofs.Signature.Written
import Cool.Proofs.Grammar.Grouping
import Cool.Proofs.Grammar.Chains
import Cool.Proofs.Tree.Places
import Cool.Proofs.Token.Within
import Cool.Proofs.Grammar.Places
import Cool.Proofs.Analysis.Places
import Cool.Proofs.Shown
import Cool.Proofs.Tree.Nesting
import Cool.Proofs.Grammar.Reaches
import Cool.Proofs.Grammar.Nesting
import Cool.Proofs.Typing.Walk
import Cool.Proofs.Analysis.Alone
import Cool.Proofs.Typing.FreeNames
import Cool.Proofs.Typing.Joins
import Cool.Proofs.Analysis.Entered
import Cool.Proofs.Token.Comment
import Cool.Proofs.Token.Literal
import Cool.Proofs.Tree.Outline
import Cool.Proofs.Dumped
