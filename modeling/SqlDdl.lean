import SqlDdl.Text.CodeRange
import SqlDdl.Text.WhiteSpace
import SqlDdl.Text.Alphabetic
import SqlDdl.Text.Numeric
import SqlDdl.Text.UpperCase
import SqlDdl.Binary64.Basic
import SqlDdl.Binary64.Nearest
import SqlDdl.Binary64.Shortest
import SqlDdl.Binary64.Text
import SqlDdl.Token.Basic
import SqlDdl.Token.Scan
import SqlDdl.Text.AsciiCase
import SqlDdl.Ast.Name
import SqlDdl.Ast.Expr
import SqlDdl.Ast.DataType
import SqlDdl.Ast.Select
import SqlDdl.Ast.Options
import SqlDdl.Ast.Table
import SqlDdl.Error
import SqlDdl.Grammar.Cursor
import SqlDdl.Grammar.Expr
import SqlDdl.Grammar.DataType
import SqlDdl.Grammar.Column
import SqlDdl.Grammar.Select
import SqlDdl.Dialect
import SqlDdl.Grammar.Table
import SqlDdl.Config
import SqlDdl.StatementCache
import SqlDdl.Proofs.Gaps
import SqlDdl.Proofs.Lexemes
import SqlDdl.Proofs.Lexing
import SqlDdl.Proofs.Steps
import SqlDdl.Proofs.ExprSteps
import SqlDdl.Proofs.TableSteps
import SqlDdl.Proofs.ErrorPlaces
import SqlDdl.Proofs.Precedence
import SqlDdl.Proofs.Reads
import SqlDdl.Proofs.ExprReading
import SqlDdl.Proofs.ExprParsed
import SqlDdl.Proofs.ExprGrammar
import SqlDdl.Proofs.Phrases
import SqlDdl.Proofs.TableParsed
import SqlDdl.Proofs.CacheRecency
import SqlDdl.Proofs.Dialects
import SqlDdl.Proofs.Blanks
import SqlDdl.Proofs.RenderTokens
import SqlDdl.Proofs.ReadBack
import SqlDdl.Proofs.Invariant
import SqlDdl.Proofs.Offsets
import SqlDdl.Proofs.Appending
import SqlDdl.Proofs.Trimming
import SqlDdl.Proofs.CacheAnswers
import SqlDdl.Proofs.StatementParsed
import SqlDdl.Proofs.Progress
import SqlDdl.Proofs.WellFormed
import SqlDdl.Proofs.Lookahead
import SqlDdl.Proofs.TableHead
import SqlDdl.Proofs.Unsupported
import SqlDdl.Proofs.UnsupportedSites
import SqlDdl.Proofs.QuotedText
import SqlDdl.Proofs.OptionTable
import SqlDdl.Proofs.StatementExprs
import SqlDdl.Proofs.Nesting
import SqlDdl.Proofs.Requoting
import SqlDdl.Proofs.WordReads
import SqlDdl.Proofs.NameText
import SqlDdl.Proofs.TableAccepted
import SqlDdl.Proofs.StatementAccepted
import SqlDdl.Proofs.StatementGrammar
import SqlDdl.Proofs.NestingCounter
