import Quasiaffine.Affine.Basic
import Quasiaffine.Affine.Substitution
import Quasiaffine.BasicRelation.Basic
import Quasiaffine.BasicRelation.Definitions
import Quasiaffine.BasicRelation.Membership
import Quasiaffine.CommandLine
import Quasiaffine.Comparison
import Quasiaffine.Constraint
import Quasiaffine.Document
import Quasiaffine.Error
import Quasiaffine.Json.Basic
import Quasiaffine.Json.Integer
import Quasiaffine.Json.Model
import Quasiaffine.Json.Parser
import Quasiaffine.Json.Quoted
import Quasiaffine.Json.Space
import Quasiaffine.Json.Writer
import Quasiaffine.LocalSpace.Basic
import Quasiaffine.LocalSpace.Merge
import Quasiaffine.LocalSpace.Order
import Quasiaffine.Matrix
import Quasiaffine.Object
import Quasiaffine.Piecewise.Basic
import Quasiaffine.Piecewise.Choice
import Quasiaffine.Printer.Expression
import Quasiaffine.Printer.Object
import Quasiaffine.Proofs.Affine
import Quasiaffine.Proofs.BasicRelation.Definitions
import Quasiaffine.Proofs.BasicRelation.Dimensions
import Quasiaffine.Proofs.BasicRelation.Points
import Quasiaffine.Proofs.BasicRelation.Recovery
import Quasiaffine.Proofs.BasicRelation.Sorting
import Quasiaffine.Proofs.Constraint
import Quasiaffine.Proofs.Division.Acyclic
import Quasiaffine.Proofs.Division.Addition
import Quasiaffine.Proofs.Division.Canonical
import Quasiaffine.Proofs.Division.Dimensions
import Quasiaffine.Proofs.Division.Editing
import Quasiaffine.Proofs.Division.Embedding
import Quasiaffine.Proofs.Division.Equalities
import Quasiaffine.Proofs.Division.MergedOrder
import Quasiaffine.Proofs.Division.Merging
import Quasiaffine.Proofs.Division.Operands
import Quasiaffine.Proofs.Division.Reachable
import Quasiaffine.Proofs.Division.Sorting
import Quasiaffine.Proofs.Division.Value
import Quasiaffine.Proofs.Dot
import Quasiaffine.Proofs.Except
import Quasiaffine.Proofs.Piecewise.Apart
import Quasiaffine.Proofs.Piecewise.Built
import Quasiaffine.Proofs.Piecewise.Choice
import Quasiaffine.Proofs.Piecewise.Order
import Quasiaffine.Proofs.Piecewise.Pairs
import Quasiaffine.Proofs.Piecewise.Values
import Quasiaffine.Proofs.Reader.Frame
import Quasiaffine.Proofs.Reader.Keeps
import Quasiaffine.Proofs.Reader.Phrase
import Quasiaffine.Proofs.Reader.Reads
import Quasiaffine.Proofs.Reader.Separation
import Quasiaffine.Proofs.Relation.Difference
import Quasiaffine.Proofs.Relation.Membership
import Quasiaffine.Proofs.Relation.Points
import Quasiaffine.Proofs.Relation.Sets
import Quasiaffine.Proofs.Relation.Subtraction
import Quasiaffine.Proofs.Row
import Quasiaffine.Proofs.Space
import Quasiaffine.Proofs.Token.Scanning
import Quasiaffine.Proofs.Token.Spelling
import Quasiaffine.Reader.Basic
import Quasiaffine.Reader.Body
import Quasiaffine.Reader.Grammar
import Quasiaffine.Reader.Shape
import Quasiaffine.Reader.State
import Quasiaffine.Relation
import Quasiaffine.RelationUnion
import Quasiaffine.Row
import Quasiaffine.Scope
import Quasiaffine.Source.Excerpt
import Quasiaffine.Source.Span
import Quasiaffine.Space.Basic
import Quasiaffine.Space.Edit
import Quasiaffine.Space.Names
import Quasiaffine.Text.Blank
import Quasiaffine.Text.Identifier
import Quasiaffine.Text.IdentifierTable
import Quasiaffine.Token.Basic
import Quasiaffine.Token.Kind
import Quasiaffine.Token.Lexer
import Quasiaffine.Token.Stream
import Quasiaffine.Main
import Quasiaffine.Proofs.Reader.Clause
import Quasiaffine.Proofs.Reader.Conditions
import Quasiaffine.Proofs.Formula.Basic
import Quasiaffine.Proofs.Formula.Conditions
import Quasiaffine.Proofs.Formula.Spelling
import Quasiaffine.Proofs.Formula.Texts
import Quasiaffine.Proofs.Parse.Texts
import Quasiaffine.Proofs.Piecewise.Arithmetic
import Quasiaffine.Proofs.Piecewise.Compared
import Quasiaffine.Proofs.Division.Unknowns
import Quasiaffine.Proofs.Printer.Names
import Quasiaffine.Proofs.Printer.Rows
import Quasiaffine.Proofs.Printer.Declarations
import Quasiaffine.Proofs.Printer.Columns
import Quasiaffine.Proofs.Printer.Conditions
import Quasiaffine.Proofs.Printer.Spaces
import Quasiaffine.Proofs.Printer.Objects
import Quasiaffine.Proofs.Printer.Texts
import Quasiaffine.Proofs.BasicRelation.Coupled
import Quasiaffine.Proofs.BasicRelation.Reachable
import Quasiaffine.Proofs.Reader.Ends
import Quasiaffine.Proofs.Reader.Progress
import Quasiaffine.Proofs.Reader.Termination
import Quasiaffine.Proofs.BasicRelation.Alike
import Quasiaffine.Proofs.Relation.Alike
import Quasiaffine.Proofs.Reader.Sorted
import Quasiaffine.Proofs.Safety.Operations
import Quasiaffine.Proofs.Safety.Steps
import Quasiaffine.Proofs.Safety.Formulas
import Quasiaffine.Proofs.Safety.Texts
import Quasiaffine.Proofs.Piecewise.Evaluation
import Quasiaffine.Proofs.Relation.Exact
import Quasiaffine.Proofs.Relation.Search
import Quasiaffine.Proofs.Json.Text
import Quasiaffine.Proofs.Json.Model
import Quasiaffine.Proofs.Printer.Pieces
import Quasiaffine.Proofs.Division.Substitution
import Quasiaffine.Proofs.Printer.Parameters
import Quasiaffine.Proofs.Reader.Wording
import Quasiaffine.Proofs.Reader.Signs
import Quasiaffine.Proofs.Parse.Objects
import Quasiaffine.Proofs.Printer.Reread
import Quasiaffine.Proofs.Affine.Dependence
import Quasiaffine.Proofs.Constraint.Canonical
import Quasiaffine.Proofs.Safety.Consistency
import Quasiaffine.Proofs.Division.Resizing
import Quasiaffine.Proofs.Token.Respelling
import Quasiaffine.Proofs.Reader.Quoting
import Quasiaffine.Proofs.Space.Wrapping
import Quasiaffine.Proofs.Affine.LowestTerms
import Quasiaffine.Proofs.Reader.Waiting
