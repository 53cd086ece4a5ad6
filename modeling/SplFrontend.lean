import SplFrontend.Accessor
import SplFrontend.Expr
import SplFrontend.Fixity
import SplFrontend.Loc
import SplFrontend.Program
import SplFrontend.Stmt
import SplFrontend.Text.Blank
import SplFrontend.Text.Hidden
import SplFrontend.Text.Quoted
import SplFrontend.Token
import SplFrontend.Ty
import SplFrontend.Diagnostic
import SplFrontend.Fault
import SplFrontend.Token.Lexed
import SplFrontend.Expr.Reading
import SplFrontend.Ty.Reading
import SplFrontend.Program.Reading
import SplFrontend.Expr.Printing
import SplFrontend.Program.Printing
import SplFrontend.Builtins
import SplFrontend.Ty.Expansion
import SplFrontend.Text.Reading
import SplFrontend.Ty.Code
import SplFrontend.Json
import SplFrontend.Json.Printing
import SplFrontend.Json.Reading
import SplFrontend.Header
import SplFrontend.Header.Document
import SplFrontend.Header.Normal
import SplFrontend.Imports
import SplFrontend.Options
import SplFrontend.Symbols.Visible
import SplFrontend.Annotations
import SplFrontend.Declarations
import SplFrontend.Flow
import SplFrontend.Precedence
import SplFrontend.Scoping
import SplFrontend.Resolution
import SplFrontend.Session
import SplFrontend.Resolution.Project
import SplFrontend.Session.Query
import SplFrontend.Command
import SplFrontend.Files
import SplFrontend.Files.Tree
import SplFrontend.Header.Search
import SplFrontend.Main
import SplFrontend.Proofs.RoundTrip
import SplFrontend.Proofs.Soundness
import SplFrontend.Proofs.Importable
import SplFrontend.Proofs.Precedence.Trees
import SplFrontend.Proofs.Overloads
import SplFrontend.Proofs.Stability.Printing
import SplFrontend.Proofs.Flow
import SplFrontend.Proofs.Elaboration.Passes
import SplFrontend.Proofs.Order.Items
import SplFrontend.Proofs.Grammar.Complete
import SplFrontend.Proofs.Imports.Contents
import SplFrontend.Proofs.Fixities
import SplFrontend.Proofs.Initializers
import SplFrontend.Proofs.Interface
import SplFrontend.Proofs.Warnings
import SplFrontend.Proofs.TypeCode.Exact
import SplFrontend.Proofs.Expansion.Reachable
import SplFrontend.Proofs.Flow.Unreachable
import SplFrontend.Proofs.Typing.Inference
import SplFrontend.Proofs.Typing.Rechecking
import SplFrontend.Proofs.Scoping.Positional
import SplFrontend.Proofs.Stability.Repetition
import SplFrontend.Proofs.Lexing.Positions
import SplFrontend.Proofs.Lexing.Spacing
import SplFrontend.Proofs.Header.Projection
import SplFrontend.Proofs.Header.Search
import SplFrontend.Proofs.Tables.Growth
import SplFrontend.Proofs.Typing.Ledger
import SplFrontend.Proofs.Run
import SplFrontend.Proofs.Cursor.Programs
