import AssignLang.Diagnostic.Register
import AssignLang.Main
import AssignLang.Token.Cursor
import AssignLang.Proofs.Grammar.Derivation
import AssignLang.Proofs.Grammar.Recognition
import AssignLang.Proofs.Token.Lexeme
import AssignLang.Proofs.Token.Partition
import AssignLang.Proofs.Tree.Places
import AssignLang.Proofs.Tree.Rendering
import AssignLang.Proofs.Tree.Canonical
import AssignLang.Proofs.Grammar.Statements
import AssignLang.Proofs.Grammar.Places
import AssignLang.Proofs.Grammar.Lookahead
import AssignLang.Proofs.Grammar.Viability
import AssignLang.Proofs.Reading
import AssignLang.Proofs.Token.Passage
import AssignLang.Proofs.Token.Slice
import AssignLang.Proofs.Grammar.Extent
import AssignLang.Proofs.RoundTrip
import AssignLang.Proofs.SyntaxError
import AssignLang.Proofs.Slice
import AssignLang.Proofs.Numeral.Literal
import AssignLang.Proofs.Tree.Evaluation
import AssignLang.Proofs.Session.History
import AssignLang.Proofs.Tree.Definedness
import AssignLang.Proofs.Session.Replay
import AssignLang.Proofs.Session.Outcome
import AssignLang.Proofs.Session.Batch
import AssignLang.Proofs.Listing.Meaning
import AssignLang.Proofs.Listing.Agreement
import AssignLang.Proofs.Session.Listing
import AssignLang.Proofs.Diagnostic.Combination
import AssignLang.Proofs.Diagnostic.Skipped
import AssignLang.Proofs.Session.Frame
import AssignLang.Proofs.Session.Isolation
import AssignLang.Proofs.Session.Assembly
import AssignLang.Proofs.Tree.Order
import AssignLang.Proofs.Grammar.Subtree
import AssignLang.Proofs.Location
import AssignLang.Proofs.Token.Shift
import AssignLang.Proofs.Grammar.Shift
import AssignLang.Proofs.Session.Concatenation
import AssignLang.Proofs.Token.Progress
import AssignLang.Proofs.Session.Likeness
import AssignLang.Proofs.CommandLine.Batch
import AssignLang.Proofs.Diagnostic.Lines
import AssignLang.Proofs.Diagnostic.Excerpt
import AssignLang.Proofs.Diagnostic.Message
import AssignLang.Proofs.Tree.Reads
import AssignLang.Proofs.Pointing
import AssignLang.Proofs.Listing.Declaration
import AssignLang.Proofs.Session.Declaration
import AssignLang.Proofs.Beginning
import AssignLang.Proofs.Successive
import AssignLang.Proofs.Token.Bracket
import AssignLang.Proofs.Tree.Grouping
import AssignLang.Proofs.Grammar.Grouping
import AssignLang.Proofs.Grouping
import AssignLang.Proofs.Tree.Course
import AssignLang.Proofs.Writing
import AssignLang.Proofs.Diagnostic.Split
import AssignLang.Proofs.Diagnostic.Window
import AssignLang.Proofs.Token.Layout
import AssignLang.Proofs.Token.Longest
import AssignLang.Proofs.Diagnostic.Merging
import AssignLang.Proofs.Diagnostic.Reporting
import AssignLang.Proofs.Token.Spacing
import AssignLang.Proofs.Spacing
import AssignLang.Proofs.Tree.Locality
import AssignLang.Proofs.Session.Commutation
import AssignLang.Proofs.Diagnostic.Numbering
import AssignLang.Proofs.Token.Description
import AssignLang.Proofs.Naming
