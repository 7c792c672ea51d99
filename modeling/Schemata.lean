import Schemata.Binary.Codec
import Schemata.Binary.Document
import Schemata.Command
import Schemata.CommandLine
import Schemata.Describe
import Schemata.Document.Basic
import Schemata.Document.Json
import Schemata.Document.Nesting
import Schemata.Document.Parser
import Schemata.Document.TypeRef
import Schemata.Document.Value
import Schemata.Documentation
import Schemata.Execution.Request
import Schemata.Execution.Schema
import Schemata.Files.Path
import Schemata.Files.Sources
import Schemata.Files.Tree
import Schemata.Generation.Basic
import Schemata.Generation.Error
import Schemata.Generation.Parts
import Schemata.Generation.Scope
import Schemata.Json.Basic
import Schemata.Json.Number
import Schemata.Json.Record
import Schemata.Json.Text
import Schemata.Literal
import Schemata.Main
import Schemata.Number.Binary64
import Schemata.Number.Numeral
import Schemata.Number.Ratio
import Schemata.Number.Shortest
import Schemata.OrderedMap
import Schemata.Proofs.Binary.Codec
import Schemata.Proofs.Binary.Document
import Schemata.Proofs.Describe.Document
import Schemata.Proofs.Describe.Faithful
import Schemata.Proofs.Describe.Origins
import Schemata.Proofs.Describe.Shape
import Schemata.Proofs.Describe.Text
import Schemata.Proofs.Describe.Validity
import Schemata.Proofs.Document.Depth
import Schemata.Proofs.Document.Limit
import Schemata.Proofs.Document.WellFormed
import Schemata.Proofs.Documentation.Blocks
import Schemata.Proofs.Documentation.Dedent
import Schemata.Proofs.Documentation.ReadBack
import Schemata.Proofs.Documentation.Runs
import Schemata.Proofs.Execution.Request
import Schemata.Proofs.Files.Order
import Schemata.Proofs.Generation.Acceptance
import Schemata.Proofs.Generation.Annotations
import Schemata.Proofs.Generation.Assembly
import Schemata.Proofs.Generation.Binding
import Schemata.Proofs.Generation.Census
import Schemata.Proofs.Generation.Checking
import Schemata.Proofs.Generation.Collecting
import Schemata.Proofs.Generation.Consolidation
import Schemata.Proofs.Generation.Contents
import Schemata.Proofs.Generation.Deciding
import Schemata.Proofs.Generation.Descriptions
import Schemata.Proofs.Generation.IdleComments
import Schemata.Proofs.Generation.Kinds
import Schemata.Proofs.Generation.Meaning
import Schemata.Proofs.Generation.Merging
import Schemata.Proofs.Generation.Order
import Schemata.Proofs.Generation.Outline
import Schemata.Proofs.Generation.Permuted
import Schemata.Proofs.Generation.PossibleTypes
import Schemata.Proofs.Generation.References
import Schemata.Proofs.Generation.Scoping
import Schemata.Proofs.Generation.Undescribed
import Schemata.Proofs.Generation.Validity
import Schemata.Proofs.Grammar.Acceptance
import Schemata.Proofs.Grammar.Causes
import Schemata.Proofs.Grammar.Completeness
import Schemata.Proofs.Grammar.Concatenation
import Schemata.Proofs.Grammar.Consuming
import Schemata.Proofs.Grammar.ErrorPlaces
import Schemata.Proofs.Grammar.Forms
import Schemata.Proofs.Grammar.Image
import Schemata.Proofs.Grammar.Layout
import Schemata.Proofs.Grammar.Nesting
import Schemata.Proofs.Grammar.Overrun
import Schemata.Proofs.Grammar.Prefixes
import Schemata.Proofs.Grammar.Reading
import Schemata.Proofs.Grammar.Soundness
import Schemata.Proofs.Grammar.Viability
import Schemata.Proofs.Grammar.Writing
import Schemata.Proofs.Json.Number
import Schemata.Proofs.Json.Range
import Schemata.Proofs.Json.Record
import Schemata.Proofs.Literal
import Schemata.Proofs.Literal.Defaults
import Schemata.Proofs.Number.Conversion
import Schemata.Proofs.Number.Nearest
import Schemata.Proofs.Number.Numerals
import Schemata.Proofs.Number.Precision
import Schemata.Proofs.Number.Rounding
import Schemata.Proofs.Number.Writing
import Schemata.Proofs.OrderedMap
import Schemata.Proofs.Outcome
import Schemata.Proofs.Reading.Definitions
import Schemata.Proofs.Reading.Following
import Schemata.Proofs.Reading.Machine
import Schemata.Proofs.Reading.Numbers
import Schemata.Proofs.Reading.Operations
import Schemata.Proofs.Reading.Scanning
import Schemata.Proofs.Reading.Strings
import Schemata.Proofs.Reading.Totality
import Schemata.Proofs.Reading.Values
import Schemata.Proofs.Resolver.Changes
import Schemata.Proofs.Resolver.Placeholders
import Schemata.Proofs.Text.Excerpt
import Schemata.Proofs.Text.Pieces
import Schemata.Proofs.Text.Position
import Schemata.Proofs.Token.Beginnings
import Schemata.Proofs.Token.Bytes
import Schemata.Proofs.Token.Composing
import Schemata.Proofs.Token.Cursor
import Schemata.Proofs.Token.Languages
import Schemata.Proofs.Token.Lines
import Schemata.Proofs.Token.Places
import Schemata.Proofs.Token.Quoting
import Schemata.Proofs.Token.Splitting
import Schemata.Proofs.Token.Writing
import Schemata.Resolver.Field
import Schemata.Resolver.Implementations
import Schemata.Resolver.Scalar
import Schemata.Schema.Annotation
import Schemata.Schema.Kind
import Schemata.Schema.Registry
import Schemata.Schema.Types
import Schemata.SyntaxError
import Schemata.Text.Blank
import Schemata.Text.Excerpt
import Schemata.Text.Lines
import Schemata.Text.Position
import Schemata.Token.Basic
import Schemata.Token.Cursor
import Schemata.Token.Pattern
