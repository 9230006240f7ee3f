import Sexpr.Loop
import Sexpr.Coroutine
import Sexpr.Coroutine.Program
import Sexpr.Unicode.Blank
import Sexpr.Unicode.Digit
import Sexpr.Unicode.Printable
import Sexpr.Text.Literal
import Sexpr.Numeral.Blocks
import Sexpr.Numeral.Decimal
import Sexpr.Numeral.Whole
import Sexpr.Binary64
import Sexpr.Binary64.Fixed
import Sexpr.Binary64.Shortest
import Sexpr.Atom
import Sexpr.Token
import Sexpr.Tree
import Sexpr.Tree.Equivalence
import Sexpr.Tree.Linked
import Sexpr.Tree.Linked.Equivalence
import Sexpr.Tree.Linked.Render
import Sexpr.Tree.Render
import Sexpr.Log
import Sexpr.Diagnostic
import Sexpr.Reader.Config
import Sexpr.Reader.Level
import Sexpr.Reader
import Sexpr.Lexeme
import Sexpr.Lexeme.Reading
import Sexpr.Session.Config
import Sexpr.Session
import Sexpr.SourceFile
import Sexpr.Directory
import Sexpr.CommandLine.Options
import Sexpr.CommandLine
import Sexpr.SelfCheck
import Sexpr.Main
import Sexpr.Proofs.Coroutine.Run
import Sexpr.Proofs.Reader.Levels
import Sexpr.Proofs.Reader.Phases
import Sexpr.Proofs.Binary64.Rounding
import Sexpr.Proofs.Numeral.Blocks
import Sexpr.Proofs.Binary64.Nearest
import Sexpr.Proofs.Binary64.Shortest
import Sexpr.Proofs.Lexeme.Cut
import Sexpr.Proofs.Token.Float
import Sexpr.Proofs.Token.Conversion
import Sexpr.Proofs.Token.Spelling
import Sexpr.Proofs.Numeral.Whole
import Sexpr.Proofs.Token.Canonical
import Sexpr.Proofs.Token.Legible
import Sexpr.Proofs.Tree.Unfolding
import Sexpr.Proofs.Tree.Recursion
import Sexpr.Proofs.Tree.Shape
import Sexpr.Proofs.Reader.Trees
import Sexpr.Proofs.Reader.RoundTrip
import Sexpr.Proofs.Lexeme.Nesting
import Sexpr.Proofs.Lexeme.Reports
import Sexpr.Proofs.Lexeme.Parallel
import Sexpr.Proofs.Lexeme.Extent
import Sexpr.Proofs.Lexeme.Offsets
import Sexpr.Proofs.Lexeme.Splitting
import Sexpr.Proofs.Lexeme.Padding
import Sexpr.Proofs.Reader.Resumption
import Sexpr.Proofs.Reader.Joining
import Sexpr.Proofs.Session.Groups
import Sexpr.Proofs.Reader.InPlace
import Sexpr.Proofs.Reader.Validity
import Sexpr.Proofs.Tree.Ownership
import Sexpr.Proofs.Tree.Acyclic
import Sexpr.Proofs.Coroutine.Program
import Sexpr.Proofs.Reader.Limit
import Sexpr.Proofs.Reader.Closing
import Sexpr.Proofs.Reader.Settings
import Sexpr.Proofs.Session.Settings
import Sexpr.Proofs.Reader.DebugView
import Sexpr.Proofs.Lexeme.DoubleQuotes
import Sexpr.Proofs.Reader.Rereading
import Sexpr.Proofs.Lexeme.Parens
import Sexpr.Proofs.Reader.Exactness
import Sexpr.Proofs.Reader.Truncation
import Sexpr.Proofs.Tree.Equivalence
import Sexpr.Proofs.Tree.Rendering
import Sexpr.Proofs.Reader.Stages
import Sexpr.Proofs.Reader.Strings
import Sexpr.Proofs.Token.Exclusion
import Sexpr.Proofs.Reader.Payloads
import Sexpr.Proofs.Session.Quitting
import Sexpr.Proofs.CommandLine.Arguments
import Sexpr.Proofs.CommandLine.Runs
