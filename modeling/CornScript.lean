import CornScript.BitSet
import CornScript.Bytes
import CornScript.Bytes.Base64
import CornScript.Bytes.Blank
import CornScript.Bytes.Printable
import CornScript.Bytes.Quoted
import CornScript.Bytes.Utf8
import CornScript.CommandLine
import CornScript.CommandLine.Flags
import CornScript.Config
import CornScript.Config.Decoder
import CornScript.Config.Problem
import CornScript.Config.Section
import CornScript.Diagnostic
import CornScript.Dict
import CornScript.Eval
import CornScript.Eval.Builtins
import CornScript.Eval.Operators
import CornScript.Eval.State
import CornScript.Heap
import CornScript.Heap.Trace
import CornScript.Log
import CornScript.Main
import CornScript.Number.Decimal
import CornScript.Number.Integer
import CornScript.Number.Parts
import CornScript.Object
import CornScript.Output
import CornScript.Repl
import CornScript.Session
import CornScript.Session.Script
import CornScript.Store
import CornScript.SyntaxError
import CornScript.Token
import CornScript.Token.Lexer
import CornScript.Tree
import CornScript.Tree.Parser
import CornScript.Tree.Reporter
import CornScript.Tree.Printer
import CornScript.Yaml
import CornScript.Yaml.Character
import CornScript.Yaml.Cursor
import CornScript.Yaml.Cursor.Property
import CornScript.Yaml.Cursor.Scalar
import CornScript.Yaml.Document
import CornScript.Yaml.Lexer
import CornScript.Yaml.Piece
import CornScript.Yaml.Scalar
import CornScript.Yaml.Timestamp
import CornScript.Yaml.Token
import CornScript.Proofs.Heap.Slots
import CornScript.Proofs.Heap.Collection
import CornScript.Proofs.Heap.Accounting
import CornScript.Proofs.Heap.Exhaustion
import CornScript.Proofs.Heap.Freshness
import CornScript.Proofs.Eval.Invariant
import CornScript.Proofs.Eval.Ownership
import CornScript.Proofs.Eval.Transparency
import CornScript.Proofs.Parser.Bound
import CornScript.Proofs.Parser.Correspondence
import CornScript.Proofs.Parser.Climbing
import CornScript.Proofs.Parser.Soundness
import CornScript.Proofs.Parser.Completeness
import CornScript.Proofs.Parser.Viability
import CornScript.Proofs.Parser.Prefix
import CornScript.Proofs.Eval.Record
import CornScript.Proofs.Eval.Recount
import CornScript.Proofs.Eval.Faithful
import CornScript.Proofs.Eval.Discipline
import CornScript.Proofs.Eval.Finality
import CornScript.Proofs.Tree.WellFormed
import CornScript.Proofs.Parser.WellFormed
import CornScript.Proofs.Eval.Frame
import CornScript.Proofs.Eval.Creation
import CornScript.Proofs.Eval.Safety
import CornScript.Proofs.Tree.Moved
import CornScript.Proofs.Parser.Moved
import CornScript.Proofs.Heap.Moved
import CornScript.Proofs.Eval.Coupling
import CornScript.Proofs.Eval.Formatting
import CornScript.Proofs.Token.Longest
import CornScript.Proofs.Parser.Legal
import CornScript.Proofs.Parser.Coverage
import CornScript.Proofs.Parser.Earliest
import CornScript.Proofs.Parser.Snippet
import CornScript.Proofs.Parser.Coherence
import CornScript.Proofs.Parser.Reporting
import CornScript.Proofs.Parser.Totality
import CornScript.Proofs.Token.Concatenation
import CornScript.Proofs.Tree.Genuine
import CornScript.Proofs.Parser.Genuine
import CornScript.Proofs.Tree.Tokens
import CornScript.Proofs.Tree.Scanning
import CornScript.Proofs.Tree.Unlabelled
import CornScript.Proofs.Parser.Rereading
import CornScript.Proofs.Parser.Roundtrip
import CornScript.Proofs.Eval.Backlog
import CornScript.Proofs.Eval.Cutting
import CornScript.Proofs.Repl.LineByLine
import CornScript.Proofs.Token.Position
import CornScript.Proofs.Token.LineEnds
import CornScript.Proofs.Token.Respelling
import CornScript.Proofs.Eval.Events
import CornScript.Proofs.Eval.Shadowing
import CornScript.Proofs.Eval.MethodCall
import CornScript.Proofs.Eval.Retention
import CornScript.Proofs.Eval.Intermediates
import CornScript.Proofs.Repl.Transcript
import CornScript.Proofs.CommandLine.Overrides
import CornScript.Proofs.Token.Reading
import CornScript.Proofs.Heap.Marking
import CornScript.Proofs.Eval.Inspection
