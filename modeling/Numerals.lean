import Numerals.Text.Blank
import Numerals.Text.Bytes
import Numerals.Text.Folding
import Numerals.Text.Path
import Numerals.Text.Reading
import Numerals.Fault
import Numerals.Error
import Numerals.Files
import Numerals.Word
import Numerals.Integer.Numeral
import Numerals.Integer.Power
import Numerals.Binary.Format
import Numerals.Binary.Double
import Numerals.Binary.Decomposition
import Numerals.Binary.Literal
import Numerals.Digits.Basic
import Numerals.Digits.Scale
import Numerals.Digits.Shortest
import Numerals.Layout.Rounding
import Numerals.Layout.Style
import Numerals.Layout.Basic
import Numerals.Layout.Display
import Numerals.Document.Problem
import Numerals.Document.Cursor
import Numerals.Document.Words
import Numerals.Document.Block
import Numerals.Document.Property
import Numerals.Document.Token
import Numerals.Document.Lexer
import Numerals.Document.Timestamp
import Numerals.Document.Scalar
import Numerals.Document.Node
import Numerals.Document.Reader
import Numerals.Document.Datum
import Numerals.Document.Decoder
import Numerals.Settings.Basic
import Numerals.Settings.Decode
import Numerals.Document.Settings
import Numerals.Lazy.Expr
import Numerals.Lazy.Builtin
import Numerals.Lazy.Value
import Numerals.Lazy.Action
import Numerals.Lazy.Store
import Numerals.Lazy.Machine
import Numerals.Lazy.Program
import Numerals.Command.Arguments
import Numerals.Command.Streams
import Numerals.Command.Values
import Numerals.Command.Session
import Numerals.Command.History
import Numerals.Command.Dispatch
import Numerals.Main
import Numerals.Proofs.Interval
import Numerals.Proofs.Binary.Rank
import Numerals.Proofs.Binary.Nearest
import Numerals.Proofs.Binary.Words
import Numerals.Proofs.Binary.Rounding
import Numerals.Proofs.Binary.Decomposition
import Numerals.Proofs.Digits.Ratios
import Numerals.Proofs.Digits.Scaling
import Numerals.Proofs.Digits.Positional
import Numerals.Proofs.Digits.Run
import Numerals.Proofs.Digits.Generate
import Numerals.Proofs.Digits.Shortest
import Numerals.Proofs.Digits.Closest
import Numerals.Proofs.Text.Numeral
import Numerals.Proofs.Binary.Literal
import Numerals.Proofs.Layout.Shortest
import Numerals.Proofs.Layout.RoundTrip
import Numerals.Proofs.Layout.Ecma
import Numerals.Proofs.Layout.Written
import Numerals.Proofs.Layout.Unambiguous
import Numerals.Proofs.Layout.Rounded
import Numerals.Proofs.Integer.Magnitude
import Numerals.Proofs.Integer.Normalized
import Numerals.Proofs.Integer.Calculation
import Numerals.Proofs.Integer.Reading
import Numerals.Proofs.Lazy.Transition
import Numerals.Proofs.Lazy.Evaluation
import Numerals.Proofs.Lazy.Discipline
import Numerals.Proofs.Lazy.Memoization
import Numerals.Proofs.Lazy.HeadNormal
import Numerals.Proofs.Lazy.Context
import Numerals.Proofs.Lazy.Application
import Numerals.Proofs.Settings
import Numerals.Proofs.Document.Keys
import Numerals.Proofs.Command.Arguments
import Numerals.Proofs.Command.Streams
import Numerals.Proofs.Command.Values
import Numerals.Proofs.Command.Dispatch
import Numerals.Proofs.Digits.Guess
import Numerals.Proofs.Command.Input
import Numerals.Proofs.Command.Composition
import Numerals.Proofs.Command.Returns
import Numerals.Proofs.Command.Session
import Numerals.Proofs.Digits.Grid
import Numerals.Proofs.Layout.HalfEven
import Numerals.Proofs.Layout.Precision
import Numerals.Proofs.Layout.Monotone
import Numerals.Proofs.Layout.Grammar
import Numerals.Proofs.Binary.Encoding
import Numerals.Proofs.Layout.Places
import Numerals.Proofs.Layout.Significant
import Numerals.Proofs.Command.Settings
import Numerals.Proofs.Integer.Addition
import Numerals.Proofs.Integer.Multiplication
import Numerals.Proofs.Integer.Division
import Numerals.Proofs.Integer.Numeral
import Numerals.Proofs.Integer.Word
import Numerals.Proofs.Word
import Numerals.Proofs.Integer.Power
import Numerals.Proofs.Integer.Grammar
import Numerals.Proofs.Lazy.Saturation
import Numerals.Proofs.Lazy.Arity
import Numerals.Proofs.Lazy.Catch
import Numerals.Proofs.Lazy.Argument
import Numerals.Proofs.Lazy.Deferral
import Numerals.Proofs.Binary.Overflow
import Numerals.Proofs.Command.Order
import Numerals.Proofs.Layout.EveryBase
import Numerals.Proofs.Binary.Logarithm
