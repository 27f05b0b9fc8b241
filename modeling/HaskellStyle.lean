import HaskellStyle.Main
import HaskellStyle.Proofs.Rule.Align
import HaskellStyle.Proofs.Rule.ImportOrder
import HaskellStyle.Proofs.Rule.PragmaOrder
import HaskellStyle.Proofs.Rule.Apply
import HaskellStyle.Proofs.Format.Success
import HaskellStyle.Proofs.Format.Preservation
import HaskellStyle.Proofs.Token.Closed
import HaskellStyle.Proofs.Token.Measure
import HaskellStyle.Proofs.Token.Spell
import HaskellStyle.Proofs.Token.Marks
import HaskellStyle.Proofs.Text.Trim
import HaskellStyle.Proofs.Print.Fits
import HaskellStyle.Proofs.Print.Output
import HaskellStyle.Proofs.Print.Trivia
import HaskellStyle.Proofs.Print.Verbatim
import HaskellStyle.Proofs.Print.Flat
import HaskellStyle.Proofs.Print.Comments
import HaskellStyle.Proofs.Print.List
import HaskellStyle.Proofs.Declaration.Tokens
import HaskellStyle.Proofs.Print.Declaration
import HaskellStyle.Proofs.Print.Parts
import HaskellStyle.Proofs.Print.Pragma
import HaskellStyle.Proofs.Text.LineIndex
import HaskellStyle.Proofs.Token.Place
import HaskellStyle.Proofs.Token.Lossless
import HaskellStyle.Proofs.Block.Read
import HaskellStyle.Proofs.Module.Outline
import HaskellStyle.Proofs.Token.Slice
import HaskellStyle.Proofs.Module.Read
import HaskellStyle.Proofs.Rule.Failure
import HaskellStyle.Proofs.Module.Region
import HaskellStyle.Proofs.Rule.Layout
import HaskellStyle.Proofs.Rule.Unlaid
import HaskellStyle.Proofs.Rule.PragmaRun
import HaskellStyle.Proofs.Rule.PragmaPlacement
import HaskellStyle.Proofs.Rule.Idempotent
import HaskellStyle.Proofs.Rule.Region
import HaskellStyle.Proofs.Token.Directive
import HaskellStyle.Proofs.Token.Region
import HaskellStyle.Proofs.Rule.Move
import HaskellStyle.Print.Checked
import HaskellStyle.Proofs.Print.Checked
import HaskellStyle.Proofs.Rule.Printable
import HaskellStyle.Proofs.Block.Map
import HaskellStyle.Proofs.Diagnostic.Sort
import HaskellStyle.Proofs.Rule.Indent
import HaskellStyle.Proofs.Rule.Advice
import HaskellStyle.Proofs.Print.Kept
import HaskellStyle.Proofs.Format.Advice
import HaskellStyle.Proofs.Declaration.Map
import HaskellStyle.Proofs.Block.Indented
import HaskellStyle.Proofs.Newline.Flat
import HaskellStyle.Proofs.Newline.Indent
import HaskellStyle.Proofs.Newline.Output
import HaskellStyle.Proofs.Newline.Print
import HaskellStyle.Proofs.Newline.Render
import HaskellStyle.Proofs.Format.Newline
import HaskellStyle.Proofs.Block.Open
import HaskellStyle.Proofs.Block.Depth
import HaskellStyle.Proofs.Format.Agreement
import HaskellStyle.Proofs.Module.Blocks
import HaskellStyle.Proofs.Batch.Independence
import HaskellStyle.Proofs.Module.Respace
import HaskellStyle.Proofs.Rule.Grid
import HaskellStyle.Proofs.Rule.Visit
import HaskellStyle.Proofs.Rule.Columns
import HaskellStyle.Proofs.Rule.Alignment
import HaskellStyle.Proofs.Text.Normalize
import HaskellStyle.Proofs.Print.Visible
import HaskellStyle.Proofs.Print.Placed
import HaskellStyle.Proofs.Module.Verbatim
import HaskellStyle.Proofs.Rule.Realised
import HaskellStyle.Proofs.Rule.Part
import HaskellStyle.Proofs.Rule.Limit
import HaskellStyle.Proofs.Rule.Undo
import HaskellStyle.Proofs.Token.Bare
import HaskellStyle.Proofs.Token.Agree
import HaskellStyle.Proofs.Token.Ending
import HaskellStyle.Proofs.Token.Reread
import HaskellStyle.Proofs.Print.Trimmed
import HaskellStyle.Proofs.Print.Written
import HaskellStyle.Proofs.Print.Rewritten
import HaskellStyle.Proofs.Module.Reread
import HaskellStyle.Proofs.Print.Chain
import HaskellStyle.Proofs.Rule.Chain
import HaskellStyle.Proofs.Text.Words
import HaskellStyle.Proofs.Text.Lines
import HaskellStyle.Proofs.Text.Utf8
import HaskellStyle.Proofs.Format.Encoding
import HaskellStyle.Proofs.Print.PragmaForm
import HaskellStyle.Proofs.Format.Reported
