import TidyTex.Command
import TidyTex.Fraction.Shorthand
import TidyTex.Options
import TidyTex.Report
import TidyTex.Spelling
import TidyTex.Vector

/-! Bringing the notation of an answer to one canonical form.

    Commands of style go first, then the tables of spellings are applied, and then fractions and
    vectors are given their braces. A period at the very end belongs to the sentence, not to the
    answer. -/

namespace TidyTex

open Text

/-- A text without commands of style. -/
def removeStyling (s : Text) : Text :=
  unwrappedCommands.foldl (fun t name => removeCommand .anywhere .unwrap name t)
    (deletedCommands.foldl (fun t name => removeCommand .anywhere .delete name t) s)

/-- A text with its vectors in canonical form. -/
def arrangeVectors (s : Text) : Text :=
  Vector.braceBareArgument (Vector.moveSubscriptOut (Vector.flattenBars s))

/-- Puts fractions in exponents in braces, with a warning when the limit is reached. -/
def promotePass (s : Text) : Report :=
  let r := Fraction.promote s
  ⟨r.1, if r.2 = Pass.exponentFractions.limit then [.limitReached .exponentFractions] else []⟩

/-- A text without a period at its end. -/
def dropPeriod (s : Text) : Text := if s.getLast? = some '.' then s.dropLast else s

/-- A text in canonical notation. -/
def canonicalize (o : Options) (s : Text) : Report :=
  let spelled := unifySpellings (deleteCosmetics (removeStyling (o.fold s)))
  let arranged := arrangeVectors (Fraction.braceShorthand spelled)
  (promotePass arranged).andThen fun t => ⟨dropPeriod t, []⟩

end TidyTex
