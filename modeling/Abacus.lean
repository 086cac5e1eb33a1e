import Abacus.Span
import Abacus.Fault
import Abacus.Unicode.Numeric
import Abacus.Unicode.WhiteSpace
import Abacus.Binary64
import Abacus.Decimal
import Abacus.Decimal.Literal
import Abacus.Decimal.Shortest
import Abacus.Decimal.Scaled
import Abacus.Token
import Abacus.Token.Piece
import Abacus.Token.Scan
import Abacus.Level
import Abacus.Group
import Abacus.Calculator
import Abacus.Json.Number
import Abacus.Json.Text
import Abacus.Json.Lexeme
import Abacus.Json.Value
import Abacus.Json.Writer
import Abacus.Numeral
import Abacus.Net.Endpoint
import Abacus.Net.Reading
import Abacus.Net.Writing
import Abacus.Wire
import Abacus.Service.Failure
import Abacus.Service.Settings
import Abacus.Service.Answer
import Abacus.Service.Router
import Abacus.Service.Program
import Abacus.Main
import Abacus.Proofs.Passes
import Abacus.Proofs.Machine
import Abacus.Proofs.Literal
import Abacus.Proofs.Brackets
import Abacus.Proofs.Outcome
import Abacus.Proofs.Cuts
import Abacus.Proofs.Language
import Abacus.Proofs.Reading
import Abacus.Proofs.Places
import Abacus.Proofs.Phrase
import Abacus.Proofs.Layer
import Abacus.Proofs.Worth
import Abacus.Proofs.Expression
import Abacus.Proofs.Sound
import Abacus.Proofs.Levels
import Abacus.Proofs.Evaluable
import Abacus.Proofs.Runs
import Abacus.Proofs.Tiling
import Abacus.Proofs.Unplaced
import Abacus.Proofs.WrittenOut
import Abacus.Proofs.Double
import Abacus.Proofs.Exact
import Abacus.Proofs.WellFormed
import Abacus.Proofs.Blame
import Abacus.Proofs.Replacement
import Abacus.Proofs.Quotation
import Abacus.Proofs.NumberText
import Abacus.Proofs.Grammar
import Abacus.Proofs.Request
import Abacus.Proofs.Compact
import Abacus.Proofs.Nearest
import Abacus.Proofs.Rounding
import Abacus.Proofs.Shortest
import Abacus.Proofs.Scaling
import Abacus.Proofs.Rereading
import Abacus.Proofs.Closeness
import Abacus.Proofs.RoundTrip
import Abacus.Proofs.Answers
import Abacus.Proofs.Chains
import Abacus.Proofs.Pairing
import Abacus.Proofs.DepthLimit
import Abacus.Proofs.Enclosure
import Abacus.Proofs.NearestDouble
import Abacus.Proofs.NumericRuns
import Abacus.Proofs.Concatenation
import Abacus.Proofs.Continuation
import Abacus.Proofs.Numerals
import Abacus.Proofs.Addresses
import Abacus.Proofs.Loading
import Abacus.Proofs.Printing
import Abacus.Proofs.Reloading
import Abacus.Proofs.Environment
import Abacus.Proofs.Ending
import Abacus.Proofs.Truncation
import Abacus.Proofs.Extent
import Abacus.Proofs.Walk
