import HotkeyScript.Cli
import HotkeyScript.FileTree
import HotkeyScript.Main
import HotkeyScript.Proofs.Grammar.StatementRules
import HotkeyScript.Proofs.Grammar.Written
import HotkeyScript.Proofs.Tiling
import HotkeyScript.Proofs.Token.Order
import HotkeyScript.Proofs.Stream.Order
import HotkeyScript.Proofs.Spans
import HotkeyScript.Proofs.Precedence
import HotkeyScript.Proofs.Stream.Spaced
import HotkeyScript.Proofs.Tree.Printable
import HotkeyScript.Proofs.Tree.Shape
import HotkeyScript.Proofs.Printing
import HotkeyScript.Proofs.Token.Exact
import HotkeyScript.Proofs.Stream.Sections
import HotkeyScript.Proofs.Termination
import HotkeyScript.Proofs.Composition
import HotkeyScript.Proofs.Remarks
import HotkeyScript.Proofs.Diagnostics
import HotkeyScript.Proofs.InBounds.Grammar
import HotkeyScript.Proofs.LogicalLines
import HotkeyScript.Proofs.Stream.ReadAnew
import HotkeyScript.Proofs.Stream.Columns
import HotkeyScript.Proofs.Stream.Comments
import HotkeyScript.Proofs.Stream.Enclosed
import HotkeyScript.Proofs.HotkeyLine
import HotkeyScript.Proofs.Selection
import HotkeyScript.Proofs.Refusals
import HotkeyScript.Proofs.Stream.LineEndings
import HotkeyScript.Proofs.Quoting
import HotkeyScript.Proofs.Tree.Preorder
import HotkeyScript.Proofs.Reporting
import HotkeyScript.Proofs.Parameters
import HotkeyScript.Proofs.VisibleText
import HotkeyScript.Proofs.Text.Lines
import HotkeyScript.Proofs.Token.Row
import HotkeyScript.Proofs.Stream.SectionLines
import HotkeyScript.Proofs.Stream.SectionString
import HotkeyScript.Proofs.Grammar.SectionText
import HotkeyScript.Proofs.Grammar.ContinuedText
import HotkeyScript.Proofs.Assignments
import HotkeyScript.Proofs.AssignmentLines
import HotkeyScript.Proofs.CommentedSections
import HotkeyScript.Proofs.KeyNames
import HotkeyScript.Proofs.Triggers
import HotkeyScript.Proofs.Hotstrings
import HotkeyScript.Proofs.HotstringOptions
import HotkeyScript.Proofs.ReportLines
import HotkeyScript.Proofs.Stream.LineMarks
import HotkeyScript.Proofs.Clauses
import HotkeyScript.Proofs.Places
