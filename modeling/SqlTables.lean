import SqlTables.Bytes
import SqlTables.Cursor
import SqlTables.Error
import SqlTables.Extraction
import SqlTables.Extraction.Body
import SqlTables.Extraction.Env
import SqlTables.Extraction.Findings
import SqlTables.Extraction.Opening
import SqlTables.Extraction.QualifiedName
import SqlTables.Extraction.TableList
import SqlTables.Extraction.Target
import SqlTables.Json
import SqlTables.Keyword
import SqlTables.Name
import SqlTables.Options
import SqlTables.StatementType
import SqlTables.Summary
import SqlTables.TableReference
import SqlTables.Text.LowerCase
import SqlTables.Text.LowerCase.Mapping
import SqlTables.Text.LowerCase.Property
import SqlTables.Text.Utf8
import SqlTables.Token
import SqlTables.Token.Gap
import SqlTables.Token.Lexer
import SqlTables.Token.Quoted
import SqlTables.Token.Source
import SqlTables.Token.Span
import SqlTables.Proofs.Token.Content
import SqlTables.Proofs.Token.Gaps
import SqlTables.Proofs.Token.Lexeme
import SqlTables.Proofs.Token.Prefix
import SqlTables.Proofs.Token.Spans
import SqlTables.Proofs.Simulation.Readers
import SqlTables.Proofs.Simulation
import SqlTables.Proofs.Transparency
import SqlTables.Proofs.Completeness
import SqlTables.Proofs.Occurrence
import SqlTables.Proofs.StatementEnd
import SqlTables.Proofs.Run
import SqlTables.Proofs.Depth
import SqlTables.Proofs.CommonTables
import SqlTables.Proofs.Scope
import SqlTables.Proofs.Selection
import SqlTables.Proofs.Union
import SqlTables.Proofs.Filling
import SqlTables.Proofs.FillingWith
import SqlTables.Proofs.QuerySource
import SqlTables.Proofs.Parenthesized
import SqlTables.Proofs.TablePosition.Position
import SqlTables.Proofs.TablePosition
import SqlTables.Proofs.Token.Written
import SqlTables.Proofs.Command
import SqlTables.Proofs.LetterCase
import SqlTables.Proofs.MixedList
import SqlTables.Proofs.Modification
import SqlTables.Proofs.Cursor
import SqlTables.Proofs.Cursor.Access
import SqlTables.Proofs.Cursor.Bytewise
import SqlTables.Proofs.Cursor.Calls
import SqlTables.Proofs.Cursor.Closing
import SqlTables.Proofs.Cursor.Enclosed
import SqlTables.Proofs.Cursor.QualifiedName
import SqlTables.Proofs.Cursor.Quoting
import SqlTables.Proofs.Cursor.Tiles
import SqlTables.Proofs.Folding
import SqlTables.Proofs.Grammar.SchemaChange
import SqlTables.Proofs.SchemaChange
import SqlTables.Proofs.Token.Layout
import SqlTables.Proofs.Text.Utf8
import SqlTables.Proofs.Text.Whole
import SqlTables.Proofs.Text.Copy
import SqlTables.Proofs.Subqueries
import SqlTables.Proofs.Progress
import SqlTables.Proofs.Ends
import SqlTables.Proofs.Progress.Course
import SqlTables.Proofs.Reader
import SqlTables.Proofs.Reader.Names
