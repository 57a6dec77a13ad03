import TidyTex.Text.Basic
import TidyTex.Text.Span
import TidyTex.Text.Blank
import TidyTex.Text.Alphabetic
import TidyTex.Text.DecimalDigit
import TidyTex.Text.Search
import TidyTex.Text.Rule
import TidyTex.Repeat
import TidyTex.Delimiter
import TidyTex.Brace.Escape
import TidyTex.Brace.Scope
import TidyTex.Brace.Group
import TidyTex.Brace.Owner
import TidyTex.Brace.Outer
import TidyTex.Brace.SubscriptBase
import TidyTex.Command
import TidyTex.Fraction.Argument
import TidyTex.Fraction.Shorthand
import TidyTex.Fraction.Exponent
import TidyTex.Vector
import TidyTex.Sign
import TidyTex.Relation
import TidyTex.Symbol
import TidyTex.Spelling
import TidyTex.Options
import TidyTex.Report
import TidyTex.Answer
import TidyTex.Canonical
import TidyTex.Normalize
import TidyTex.Session
import TidyTex.Settings.Boxes
import TidyTex.Settings.Basic
import TidyTex.Record.Value
import TidyTex.Record.Options
import TidyTex.Record.Settings
import TidyTex.Record.Summary
import TidyTex.Proofs.Nesting.Basic
import TidyTex.Proofs.Nesting.Group
import TidyTex.Proofs.Nesting.Grammar
import TidyTex.Proofs.Nesting.Brace
import TidyTex.Proofs.Rule
import TidyTex.Proofs.Command
import TidyTex.Proofs.Run
import TidyTex.Proofs.Fraction.Shorthand
import TidyTex.Proofs.Vector
import TidyTex.Proofs.Nesting.Rewriting
import TidyTex.Proofs.Canonical.Passes
import TidyTex.Proofs.Fraction.Exponent
import TidyTex.Proofs.Symbol
import TidyTex.Proofs.Canonical.Content
import TidyTex.Proofs.Canonical.Nesting
import TidyTex.Proofs.Canonical.CommandName
import TidyTex.Proofs.Brace.Escape
import TidyTex.Proofs.Brace.Scope
import TidyTex.Proofs.Brace.Literal
import TidyTex.Proofs.Brace.Owner
import TidyTex.Proofs.Answer.Selection
import TidyTex.Proofs.Normalize
import TidyTex.Proofs.Nesting.Outside
import TidyTex.Proofs.Answer.Nesting
import TidyTex.Proofs.Session
import TidyTex.Proofs.Warning
import TidyTex.Proofs.Fraction.Reading
import TidyTex.Proofs.Fraction.Settled
import TidyTex.Proofs.Fraction.Name
import TidyTex.Proofs.Ascii
import TidyTex.Proofs.Limit
import TidyTex.Offset.Checked
import TidyTex.Offset.Passes
import TidyTex.Proofs.Offset.Checked
import TidyTex.Proofs.Offset.Scan
import TidyTex.Proofs.Offset.Brace
import TidyTex.Proofs.Offset.Command
import TidyTex.Proofs.Offset.Passes
import TidyTex.Proofs.Stability.Rank
import TidyTex.Proofs.Stability.Respelling
import TidyTex.Proofs.Stability.Isolation
import TidyTex.Proofs.Stability.Roughness
import TidyTex.Proofs.Stability.Respelled
import TidyTex.Proofs.Stability.Settled
import TidyTex.Proofs.Relation
import TidyTex.Proofs.Tree.Basic
import TidyTex.Proofs.Tree.Removal
import TidyTex.Proofs.Fraction.Leftmost
import TidyTex.Proofs.Fraction.Wrapping
import TidyTex.Proofs.Relation.Priority
import TidyTex.Proofs.Relation.Symbol
import TidyTex.Proofs.Answer.Depth
import TidyTex.Proofs.Nesting.Content
import TidyTex.Proofs.Vector.Outermost
import TidyTex.Proofs.Vector.Flattening
import TidyTex.Proofs.Vector.LetterBar
import TidyTex.Proofs.Vector.Depth
import TidyTex.Proofs.Vector.BareArgument
import TidyTex.Proofs.Vector.Subscript
import TidyTex.Proofs.Brace.Outer
import TidyTex.Proofs.SubscriptBase.Reading
import TidyTex.Proofs.SubscriptBase.Leftover
import TidyTex.Proofs.WholeName
import TidyTex.Proofs.Replacement
import TidyTex.Proofs.Spelling.LetterBar
import TidyTex.Proofs.Spelling.Closed
import TidyTex.Proofs.Spelling.Sign
import TidyTex.Proofs.Spelling.Mark
