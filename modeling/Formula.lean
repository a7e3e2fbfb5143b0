import Formula.Binary64
import Formula.Bytes
import Formula.Compile.Basic
import Formula.Compile.Build
import Formula.Compile.Calls
import Formula.Compile.Context
import Formula.Compile.Fault
import Formula.Compile.Groups
import Formula.Compile.Literals
import Formula.Compile.Markers
import Formula.Compile.Operands
import Formula.Constants
import Formula.CostTable
import Formula.Decimal.Layout
import Formula.Decimal.Read
import Formula.Decimal.Shortest
import Formula.Definition.Basic
import Formula.Definition.Json
import Formula.Engine
import Formula.Expression
import Formula.Function
import Formula.Json.Datum
import Formula.Json.Text
import Formula.Json.Token
import Formula.Json.Tree
import Formula.Json.Write
import Formula.Literal
import Formula.Node.Basic
import Formula.Node.Fold
import Formula.Node.Lower
import Formula.Node.Typing
import Formula.Operation
import Formula.Operator
import Formula.Plugin.Basic
import Formula.Plugin.Extractors
import Formula.Program.Basic
import Formula.Program.Builder
import Formula.Program.Run
import Formula.Proofs.Caching
import Formula.Proofs.Compile.Answers
import Formula.Proofs.Compile.Atomicity
import Formula.Proofs.Compile.Atoms
import Formula.Proofs.Compile.Backtracking
import Formula.Proofs.Compile.Bisimulation
import Formula.Proofs.Compile.Building
import Formula.Proofs.Compile.Chain
import Formula.Proofs.Compile.ChainBuilding
import Formula.Proofs.Compile.Depth
import Formula.Proofs.Compile.FamilyTyping
import Formula.Proofs.Compile.History
import Formula.Proofs.Compile.Memo
import Formula.Proofs.Compile.NameSupply
import Formula.Proofs.Compile.Naming
import Formula.Proofs.Compile.Ordering
import Formula.Proofs.Compile.Precedence
import Formula.Proofs.Compile.Preparation
import Formula.Proofs.Compile.SplitBudget
import Formula.Proofs.Compile.Splits
import Formula.Proofs.Concurrency
import Formula.Proofs.Evaluation
import Formula.Proofs.Folding.Building
import Formula.Proofs.Folding.Closed
import Formula.Proofs.Folding.Completeness
import Formula.Proofs.Folding.Constant
import Formula.Proofs.Folding.Evaluation
import Formula.Proofs.Folding.Offset
import Formula.Proofs.Folding.Registers
import Formula.Proofs.Folding.Tolerance
import Formula.Proofs.Lowering.Agreement
import Formula.Proofs.Lowering.Code
import Formula.Proofs.Lowering.Draws
import Formula.Proofs.Lowering.Heads
import Formula.Proofs.Lowering.LiteralTable
import Formula.Proofs.Lowering.Meaning
import Formula.Proofs.Lowering.Natural
import Formula.Proofs.Lowering.Numbering
import Formula.Proofs.Lowering.Signs
import Formula.Proofs.Lowering.Soundness
import Formula.Proofs.Lowering.StraightLine
import Formula.Proofs.Lowering.TolerantComparisons
import Formula.Proofs.Lowering.TypedRegisters
import Formula.Proofs.Lowering.Widening
import Formula.Proofs.Numbers.Arithmetic
import Formula.Proofs.Numbers.Bands
import Formula.Proofs.Numbers.Binary
import Formula.Proofs.Numbers.Bytes
import Formula.Proofs.Numbers.Hexadecimal
import Formula.Proofs.Numbers.Integers
import Formula.Proofs.Numbers.Nearest
import Formula.Proofs.Numbers.Rounding
import Formula.Proofs.Numbers.Shifts
import Formula.Proofs.Numbers.Spellings
import Formula.Proofs.Numbers.Whole
import Formula.Proofs.Outcome
import Formula.Proofs.Printing.Building
import Formula.Proofs.Printing.Calls
import Formula.Proofs.Printing.Draft
import Formula.Proofs.Printing.Groups
import Formula.Proofs.Printing.Phrase
import Formula.Proofs.Printing.RoundTrip
import Formula.Proofs.Printing.Tables
import Formula.Proofs.Source.Alphabet
import Formula.Proofs.Source.Bracketing
import Formula.Proofs.Source.Correspondence
import Formula.Proofs.Source.Fields
import Formula.Proofs.Source.FirstUse
import Formula.Proofs.Source.FlatTexts
import Formula.Proofs.Source.FreshNames
import Formula.Proofs.Source.HexNumbers
import Formula.Proofs.Source.Juxtaposition
import Formula.Proofs.Source.LeafOrder
import Formula.Proofs.Source.Links
import Formula.Proofs.Source.Literals
import Formula.Proofs.Source.Loops
import Formula.Proofs.Source.MarkedTexts
import Formula.Proofs.Source.Marks
import Formula.Proofs.Source.Numerals
import Formula.Proofs.Source.Operand
import Formula.Proofs.Source.Parameters
import Formula.Proofs.Source.Parentheses
import Formula.Proofs.Source.Quotation
import Formula.Proofs.Source.Reached
import Formula.Proofs.Source.Renaming
import Formula.Proofs.Source.Respelling
import Formula.Proofs.Source.Scanning
import Formula.Proofs.Source.Separation
import Formula.Proofs.Source.Spacing
import Formula.Proofs.Source.Stages
import Formula.Proofs.Source.Strings
import Formula.Proofs.Source.StrippedTexts
import Formula.Proofs.Source.Termination
import Formula.Proofs.Source.Unfolding
import Formula.Proofs.Text.Nesting
import Formula.Proofs.Text.Occurrences
import Formula.Proofs.Text.Pieces
import Formula.Proofs.Text.Respelling
import Formula.Proofs.Text.Words
import Formula.Proofs.Typing.Assembly
import Formula.Proofs.Typing.Labels
import Formula.Proofs.Typing.Narrowing
import Formula.Proofs.Typing.Offers
import Formula.Proofs.Typing.Optimality
import Formula.Proofs.Typing.Selection
import Formula.Proofs.Typing.Tables
import Formula.Proofs.Value.Canonical
import Formula.Proofs.Value.Events
import Formula.Proofs.Value.Exchange
import Formula.Proofs.Value.Tokens
import Formula.Text.AlphabeticMark
import Formula.Text.Basic
import Formula.Text.ByteOffset
import Formula.Text.CharClass
import Formula.Text.Extender
import Formula.Text.Invisible
import Formula.Text.Letter
import Formula.Text.Nesting
import Formula.Text.Numeral
import Formula.Text.Quoted
import Formula.Text.RecentLetter
import Formula.Tolerance.Basic
import Formula.Tolerance.Json
import Formula.Value.Basic
import Formula.Value.Json
import Formula.ValueType
import Formula.Word
