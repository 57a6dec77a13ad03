import TidyTex.Brace.Outer
import TidyTex.Command
import TidyTex.Delimiter
import TidyTex.Options
import TidyTex.Relation
import TidyTex.Report

/-! Isolating the answer in a text.

    An answer comes in a box or in braces, with a unit behind a `\quad`, or on the right of an
    equation:

        source      characters stripped and folded, literal braces turned into parentheses
        unbox       `\boxed{…}` unwrapped
        strip       outer braces, up to 10 pairs
        cut         at the first `\quad`, then behind the last relation
        strip       outer braces, up to 19 pairs

    All of it rests on the nesting of the delimiters, so a source that is not balanced is left alone
    and the text comes back as it was given. -/

namespace TidyTex

open Text

/-- The text in which the answer is looked for. -/
def Options.source (o : Options) (s : Text) : Text := literalBracesToParens (o.fold (o.strip s))

/-- Unwraps every box, if the options ask for it. -/
def Options.unbox (o : Options) (s : Text) : Text :=
  if o.extractBoxed then removeCommand .anywhere .unwrap (command "boxed") s else s

/-- The text before the first `\quad`. -/
def beforeQuad (s : Text) : Text := ((cutFirst? (command "quad") s).map Cut.before).getD s

/-- Strips outer braces up to the limit of a pass, with a warning when there are more. -/
def stripPass (pass : Pass) (s : Text) : Report :=
  let r := stripOuters pass.limit s
  ⟨r.1, if r.2 = pass.limit ∧ (stripOuter? r.1).isSome then [.limitReached pass] else []⟩

/-- The answer in a balanced source. -/
def Options.isolateIn (o : Options) (source : Text) : Report :=
  (stripPass .leadingBraces (o.unbox source)).andThen fun t =>
    stripPass .trailingBraces (rightHandSide (beforeQuad t))

/-- The answer in a text; the text itself, with a warning, when its source is not balanced. -/
def isolate (o : Options) (s : Text) : Report :=
  if isBalanced (o.source s) then o.isolateIn (o.source s) else ⟨s, [.unbalanced]⟩

theorem isolate_of_isBalanced {o : Options} {s : Text} (h : isBalanced (o.source s) = true) :
    isolate o s = o.isolateIn (o.source s) := if_pos h

theorem isolate_of_not_isBalanced {o : Options} {s : Text} (h : isBalanced (o.source s) = false) :
    isolate o s = ⟨s, [.unbalanced]⟩ := if_neg (by simp [h])

/-- Text before a `\quad` is a beginning of the whole. -/
theorem beforeQuad_isPrefix (s : Text) : beforeQuad s <+: s := by
  unfold beforeQuad
  cases h : cutFirst? (command "quad") s with
  | none => exact List.prefix_rfl
  | some k =>
    conv => rhs; rw [append_of_cutFirst? h, List.append_assoc]
    exact List.prefix_append _ _

end TidyTex
