import Octets.Bytes
import Octets.Bytes.Class
import Octets.Bytes.Partition
import Octets.Csv.Field
import Octets.Csv.Reader
import Octets.Csv.Store
import Octets.Csv.Table
import Octets.Cursor
import Octets.Cursor.Command
import Octets.Cursor.Primitive
import Octets.Cursor.Speculation
import Octets.Form.Body
import Octets.Form.Encoding
import Octets.Form.Parser
import Octets.Form.Part
import Octets.Glob
import Octets.Glob.Assembly
import Octets.Glob.Token
import Octets.LeadTable
import Octets.Lexer
import Octets.Lexer.Rules
import Octets.Matcher
import Octets.Request.Head
import Octets.Request.Parser
import Octets.Scan
import Octets.Stream.Buffer
import Octets.Stream.Carry
import Octets.Stream.Grammar
import Octets.Stream.Machine
import Octets.Text.Quoted
import Octets.Text.Utf8
import Octets.Proofs.Request.Chunking
import Octets.Proofs.Form.Chunking
import Octets.Proofs.Stream.Trace
import Octets.Proofs.Entries
import Octets.Proofs.Request.Syntax
import Octets.Proofs.Request.Acceptance
import Octets.Proofs.Form.Delimiter
import Octets.Proofs.Form.Syntax
import Octets.Proofs.Text.Utf8
import Octets.Proofs.Form.PartHeader
import Octets.Proofs.Form.Multipart
import Octets.Proofs.Stream.Stop
import Octets.Proofs.Form.Pairs
import Octets.Proofs.Form.Encoded
import Octets.Proofs.Stream.Window
import Octets.Proofs.Lexer.Lines
import Octets.Proofs.Lexer.Tiling
import Octets.Proofs.Text.Ascii
import Octets.Proofs.Csv.Fields
import Octets.Proofs.Csv.Written
import Octets.Proofs.Csv.Reachable
import Octets.Proofs.Csv.RoundTrip
import Octets.Proofs.Scan
import Octets.Proofs.Cursor.Transaction
import Octets.Proofs.Cursor.Program
import Octets.Proofs.Cursor.Invariant
import Octets.Proofs.Stream.Limit
import Octets.Proofs.Limit
import Octets.Proofs.Cursor.Ahead
import Octets.Proofs.Glob.Tokens
import Octets.Proofs.Glob.Language
import Octets.Proofs.Glob.Soundness
import Octets.Proofs.Stream.Refusal
import Octets.Proofs.Refusal
import Octets.Proofs.Matcher.Composition
import Octets.Proofs.Lexer.Total
import Octets.Proofs.Glob.Progress
import Octets.Proofs.Csv.Ids
import Octets.Proofs.Cursor.Lookahead
import Octets.Proofs.Cursor.Transparency
import Octets.Proofs.Form.Finish
import Octets.Proofs.Lexer.Independence
import Octets.Proofs.Csv.Layout
import Octets.Proofs.Cursor.Order
import Octets.Proofs.Cursor.Restoration
import Octets.Proofs.Stream.Tokens
import Octets.Proofs.Form.Parts
import Octets.Proofs.Form.PartLimit
import Octets.Proofs.Lexer.Ending
import Octets.Proofs.LeadTable
import Octets.Proofs.Glob.Reading
import Octets.Proofs.Glob.Written
import Octets.Proofs.Matcher.Shortest
import Octets.Proofs.Glob.Search
import Octets.Proofs.Glob.Alternation
import Octets.Proofs.Glob.Escapes
import Octets.Proofs.Cursor.Escaping
import Octets.Proofs.Stream.Buffer
import Octets.Proofs.Csv.Rows
import Octets.Proofs.Csv.Faults
import Octets.Proofs.Form.Encoding
import Octets.Proofs.Csv.Escaping
import Octets.Proofs.Stream.Invariant
import Octets.Proofs.Stream.Reached
import Octets.Proofs.Stream.Carry
import Octets.Proofs.Stream.Simulation
import Octets.Proofs.Request.Parser
import Octets.Proofs.Form.Parser
import Octets.Proofs.Carry
import Octets.Proofs.Form.Content
import Octets.Proofs.LeadTable.Rounds
import Octets.Proofs.Bytes.Partition
