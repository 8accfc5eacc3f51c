import HexDoc.Text.CharClass
import HexDoc.Text.Cursor
import HexDoc.Token.Basic
import HexDoc.Token.Gap
import HexDoc.Token.Scan
import HexDoc.Token.Moves
import HexDoc.Hex
import HexDoc.Entries
import HexDoc.Parser.Basic
import HexDoc.Value.Basic
import HexDoc.Parser.Document
import HexDoc.Resolution.Ledger
import HexDoc.Resolution.Resolver
import HexDoc.Value.Plain
import HexDoc.Xml.Element
import HexDoc.Xml.Writer
import HexDoc.Yaml.Writer
import HexDoc.Command.Options
import HexDoc.Text.Encoding
import HexDoc.Command.FileSystem
import HexDoc.Command.FileTree
import HexDoc.Command.Run
import HexDoc.Main
import HexDoc.Parser.Descent
import HexDoc.Parser.Requests
import HexDoc.Value.References
import HexDoc.Resolution.PostOrder
import HexDoc.Resolution.Recursion
import HexDoc.Resolution.Driver
import HexDoc.Resolution.Substitution
import HexDoc.Document.Written
import HexDoc.Token.Layout
import HexDoc.Token.Arrangement
import HexDoc.Xml.Reader
import HexDoc.Yaml.Reader
import HexDoc.Proofs.Outcome
import HexDoc.Proofs.Text.Span
import HexDoc.Proofs.Text.Place
import HexDoc.Proofs.Parser.Stream
import HexDoc.Proofs.Parser.Transitions
import HexDoc.Proofs.Token.Lexeme
import HexDoc.Proofs.Token.Spacing
import HexDoc.Proofs.Token.Tiling
import HexDoc.Proofs.Token.Lossless
import HexDoc.Proofs.Token.Moves
import HexDoc.Proofs.Token.Below
import HexDoc.Proofs.Token.Resting
import HexDoc.Proofs.Document.Collapse
import HexDoc.Proofs.Document.Grammar
import HexDoc.Proofs.Document.Numbers
import HexDoc.Proofs.Document.Recognition
import HexDoc.Proofs.Document.RoundTrip
import HexDoc.Proofs.Document.Concatenation
import HexDoc.Proofs.Document.Viable
import HexDoc.Proofs.Document.Foreign
import HexDoc.Proofs.Value.Data
import HexDoc.Proofs.Resolution.Machine
import HexDoc.Proofs.Resolution.Replacement
import HexDoc.Proofs.Resolution.Settled
import HexDoc.Proofs.Resolution.Meaning
import HexDoc.Proofs.Resolution.Success
import HexDoc.Proofs.Resolution.History
import HexDoc.Proofs.Resolution.Order
import HexDoc.Proofs.Resolution.Errors
import HexDoc.Proofs.Conversion.Failures
import HexDoc.Proofs.Command.Endings
import HexDoc.Value.Spelling
import HexDoc.Proofs.Parser.Spelling
import HexDoc.Proofs.Resolution.Spelling
import HexDoc.Proofs.Conversion.Spelling
import HexDoc.Proofs.Xml.Elements
import HexDoc.Proofs.Xml.Escape
import HexDoc.Proofs.Xml.Pieces
import HexDoc.Proofs.Xml.Rows
import HexDoc.Proofs.Xml.RoundTrip
import HexDoc.Proofs.Yaml.Scalars
import HexDoc.Proofs.Yaml.Lines
import HexDoc.Proofs.Yaml.Composition
import HexDoc.Proofs.Yaml.RoundTrip
import HexDoc.Proofs.Parser.Session
import HexDoc.Proofs.Parser.Descent
import HexDoc.Proofs.Resolution.Unwinding
import HexDoc.Proofs.Resolution.Accounting
import HexDoc.Proofs.Conversion.Log
import HexDoc.Proofs.Resolution.UnderWay
import HexDoc.Proofs.Resolution.Retry
import HexDoc.Proofs.Resolution.Reordering
import HexDoc.Proofs.Resolution.Locality
import HexDoc.Proofs.Resolution.Inlining
import HexDoc.Proofs.Resolution.Projection
import HexDoc.Proofs.Token.Arrangement
import HexDoc.Proofs.Hex.Positional
import HexDoc.Proofs.Value.FirstObstacle
import HexDoc.Proofs.Token.Above
import HexDoc.Proofs.Document.Standing
import HexDoc.Text.LineEnds
import HexDoc.Proofs.Command.LineEnds
import HexDoc.Proofs.Value.WellFormed
import HexDoc.Proofs.Conversion.WellFormed
import HexDoc.Proofs.Token.Seeking
import HexDoc.Loop
import HexDoc.Token.Turns
import HexDoc.Parser.Turns
import HexDoc.Resolution.Tariff
import HexDoc.Proofs.Resolution.Budget
import HexDoc.Proofs.Token.Turns
import HexDoc.Proofs.Parser.Turns
