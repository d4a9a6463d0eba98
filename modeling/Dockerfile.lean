import Dockerfile.Text.Bytes
import Dockerfile.Text.Tokens
import Dockerfile.Text.Piece
import Dockerfile.Text.Encoding
import Dockerfile.Text.CaseTable
import Dockerfile.Text.Case
import Dockerfile.Text.Folding
import Dockerfile.Text.PrintableTable
import Dockerfile.Text.Printable
import Dockerfile.Text.Decimal
import Dockerfile.Text.Quoted
import Dockerfile.Text.Columns
import Dockerfile.Text.Distance
import Dockerfile.Json.Token
import Dockerfile.Json.StringArray
import Dockerfile.Json.Value
import Dockerfile.Json.Writer
import Dockerfile.Document.Span
import Dockerfile.Document.Line
import Dockerfile.Document.Document
import Dockerfile.Json.Location
import Dockerfile.Keyword
import Dockerfile.Contract
import Dockerfile.Argument
import Dockerfile.Directive
import Dockerfile.Statement
import Dockerfile.Quote
import Dockerfile.Word
import Dockerfile.Reference
import Dockerfile.Form
import Dockerfile.Instruction
import Dockerfile.Variable
import Dockerfile.Stage
import Dockerfile.Analysis
import Dockerfile.Event
import Dockerfile.Snapshot
import Dockerfile.Fault
import Dockerfile.Document.PositionText
import Dockerfile.Suggestion
import Dockerfile.Session.Shape
import Dockerfile.Session.Capabilities
import Dockerfile.Session.Parameters
import Dockerfile.Session.Session
import Dockerfile.CommandLine.Flags
import Dockerfile.CommandLine.Command
import Dockerfile.CommandLine.Path
import Dockerfile.CommandLine.Report
import Dockerfile.CommandLine.Run
import Dockerfile.Session.Frame
import Dockerfile.Main
import Dockerfile.Proofs.Text.Bytes
import Dockerfile.Proofs.Text.Boundary
import Dockerfile.Proofs.Document.Lines
import Dockerfile.Proofs.Document.Positions
import Dockerfile.Proofs.Document.Conversion
import Dockerfile.Proofs.Argument
import Dockerfile.Proofs.BackMap
import Dockerfile.Proofs.Statement.Groups
import Dockerfile.Proofs.Statement.Layout
import Dockerfile.Proofs.Text.Tokens
import Dockerfile.Proofs.Word
import Dockerfile.Proofs.Splitting
import Dockerfile.Proofs.Form
import Dockerfile.Proofs.Reference
import Dockerfile.Proofs.Statement.Edges
import Dockerfile.Proofs.Variable
import Dockerfile.Proofs.Stage
import Dockerfile.Proofs.Cursor
import Dockerfile.Proofs.Definition
import Dockerfile.Proofs.Declared
import Dockerfile.Proofs.StageDefinition
import Dockerfile.Proofs.StageIndex
import Dockerfile.Proofs.Relocation.Argument
import Dockerfile.Proofs.Relocation.Statement
import Dockerfile.Proofs.Relocation.Variable
import Dockerfile.Proofs.Relocation.Analysis
import Dockerfile.Proofs.Statement.Grouping
import Dockerfile.Proofs.Relocation.Insertion
import Dockerfile.Proofs.Relocation.LineEnding
import Dockerfile.Proofs.Guarded.Access
import Dockerfile.Proofs.Guarded.Document
import Dockerfile.Proofs.Guarded.Argument
import Dockerfile.Proofs.Guarded.Statement
import Dockerfile.Proofs.Guarded.Instruction
import Dockerfile.Proofs.Guarded.Word
import Dockerfile.Proofs.Guarded.Reference
import Dockerfile.Proofs.Guarded.Variable
import Dockerfile.Proofs.Guarded.Analysis
import Dockerfile.Proofs.Statement.Joining
import Dockerfile.Proofs.Appending
import Dockerfile.Proofs.Statement.Breaking
import Dockerfile.Proofs.LineBreak
import Dockerfile.Proofs.Value
import Dockerfile.Proofs.Reported
import Dockerfile.Proofs.Keyword
import Dockerfile.Proofs.Declaration.Assignment
import Dockerfile.Proofs.Declaration.Lines
import Dockerfile.Proofs.Declaration.Legacy
import Dockerfile.Proofs.Declaration.Written
import Dockerfile.Proofs.Declaration.RoundTrip
import Dockerfile.Proofs.Snapshot
import Dockerfile.Proofs.Session
import Dockerfile.Proofs.Directive
import Dockerfile.Proofs.Json.Grammar
import Dockerfile.Proofs.Json.Lexing
import Dockerfile.Proofs.Json.StringArray
import Dockerfile.Proofs.ArrayForm
import Dockerfile.Proofs.Fault
import Dockerfile.Proofs.Document.Partition
import Dockerfile.Proofs.Document.PositionText
import Dockerfile.Proofs.Suggestion
import Dockerfile.Proofs.Declaration.Gist
import Dockerfile.Proofs.Declaration.Resuming
import Dockerfile.Proofs.Text.Case
import Dockerfile.Proofs.Vocabulary
