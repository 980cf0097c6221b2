import DeskCalculator.Binary64.Arithmetic
import DeskCalculator.Binary64.Narrowing
import DeskCalculator.Decimal.Shortest
import DeskCalculator.Text.Decoding
import DeskCalculator.Text.Terminal
import DeskCalculator.Token
import DeskCalculator.NumberLiteral
import DeskCalculator.Lexeme
import DeskCalculator.Error
import DeskCalculator.SymbolTable
import DeskCalculator.LineReader
import DeskCalculator.TokenStream
import DeskCalculator.Evaluation
import DeskCalculator.Grammar
import DeskCalculator.Grammar.Fuel
import DeskCalculator.Statement
import DeskCalculator.Calculator
import DeskCalculator.Calculator.Progress
import DeskCalculator.Session
import DeskCalculator.CommandLine
import DeskCalculator.Program
import DeskCalculator.Main
import DeskCalculator.Proofs.Text.Decoding
import DeskCalculator.Proofs.Text.Lines
import DeskCalculator.Proofs.Binary64.Nearest
import DeskCalculator.Proofs.Binary64.Whole
import DeskCalculator.Proofs.Lexing.Literal
import DeskCalculator.Proofs.Lexing.Items
import DeskCalculator.Proofs.Lexing.Lines
import DeskCalculator.Proofs.Lexing.Longest
import DeskCalculator.Proofs.Lexing.Tiling
import DeskCalculator.Proofs.Decimal.Literals
import DeskCalculator.Proofs.Decimal.Rounded
import DeskCalculator.Proofs.Binary64.Patterns
import DeskCalculator.Proofs.Binary64.Truncation
import DeskCalculator.Proofs.Binary64.Rounding
import DeskCalculator.Proofs.Binary64.Roots
import DeskCalculator.Proofs.Binary64.Operations
import DeskCalculator.Proofs.Decimal.Reading
import DeskCalculator.Proofs.Decimal.Significant
import DeskCalculator.Proofs.Decimal.Notation
import DeskCalculator.Proofs.Decimal.ShortLiterals
import DeskCalculator.Proofs.SymbolTable.Environment
import DeskCalculator.Proofs.Stream.Actions
import DeskCalculator.Proofs.Stream.Exhaustion
import DeskCalculator.Proofs.Stream.Pieces
import DeskCalculator.Proofs.Stream.Deliveries
import DeskCalculator.Proofs.Stream.Lines
import DeskCalculator.Proofs.Stream.Eager
import DeskCalculator.Proofs.Stream.Skipping
import DeskCalculator.Proofs.Stream.Discarding
import DeskCalculator.Proofs.Stream.Buffer
import DeskCalculator.Proofs.Stream.Positions
import DeskCalculator.Proofs.Grammar.Rules
import DeskCalculator.Proofs.Grammar.Derivation
import DeskCalculator.Proofs.Grammar.Meaning
import DeskCalculator.Proofs.Grammar.Adequacy
import DeskCalculator.Proofs.Grammar.Moves
import DeskCalculator.Proofs.Grammar.Soundness
import DeskCalculator.Proofs.Grammar.Completeness
import DeskCalculator.Proofs.Grammar.Acceptance
import DeskCalculator.Proofs.Grammar.Viable
import DeskCalculator.Proofs.Calculator.Statements
import DeskCalculator.Proofs.Calculator.Invariants
import DeskCalculator.Proofs.Calculator.Held
import DeskCalculator.Proofs.Calculator.Recovery
import DeskCalculator.Proofs.Calculator.DeclaredNames
import DeskCalculator.Proofs.Calculator.Causes
import DeskCalculator.Proofs.Calculator.SyntaxErrors
import DeskCalculator.Proofs.Calculator.Bounds
import DeskCalculator.Proofs.Calculator.Callers
import DeskCalculator.Proofs.Calculator.Cursors
import DeskCalculator.Proofs.Calculator.Finality
import DeskCalculator.Proofs.Calculator.ErrorPlaces
import DeskCalculator.Proofs.Calculator.ErrorLines
import DeskCalculator.Proofs.Calculator.Table
import DeskCalculator.Proofs.Sessions.Histories
import DeskCalculator.Proofs.Sessions.Endings
import DeskCalculator.Proofs.Sessions.Accesses
import DeskCalculator.Proofs.Sessions.Lines
import DeskCalculator.Proofs.Correspondence.Readings
import DeskCalculator.Proofs.Correspondence.Sessions
import DeskCalculator.Proofs.Correspondence.Layouts
import DeskCalculator.Proofs.Correspondence.Cuts
import DeskCalculator.Proofs.Programs.Spelling
import DeskCalculator.Proofs.Programs.Renaming
import DeskCalculator.Proofs.Correspondence.Renamings
import DeskCalculator.Proofs.Programs.Reference
import DeskCalculator.Proofs.Programs.Session
import DeskCalculator.Proofs.Programs.Transcript
import DeskCalculator.Proofs.Programs.ReadBack
