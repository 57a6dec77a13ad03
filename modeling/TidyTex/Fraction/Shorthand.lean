import TidyTex.Fraction.Argument
import TidyTex.Text.Rule

/-! Fractions written in short get both of their arguments in braces: `\frac12`, `\frac\pi4` and
    `\frac{a}b`.

    When no second argument follows a first one that is a command, the last letter of that command
    is read as the second argument, provided that the command keeps a letter of its own. -/

namespace TidyTex.Fraction

open Text

/-- The two arguments at the head of a text, and what follows them. -/
def arguments? (s : Text) : Option (Argument × Argument × Text) :=
  (Argument.read? s).bind fun (first, rest) =>
    match Argument.read? rest with
    | some (second, rest) => some (first, second, rest)
    | none => first.shed?.map fun (first, second) => (first, second, rest)

theorem append_of_arguments? {s t : Text} {a b : Argument} (h : arguments? s = some (a, b, t)) :
    s = a.text ++ b.text ++ t := by
  obtain ⟨⟨first, rest⟩, hfirst, h⟩ := Option.bind_eq_some_iff.1 h
  rw [Argument.append_of_read? hfirst]
  simp only at h
  split at h
  · next second rest' hsecond =>
    cases h
    rw [Argument.append_of_read? hsecond, List.append_assoc]
  · obtain ⟨⟨a', b'⟩, hshed, he⟩ := Option.map_eq_some_iff.1 h
    cases he
    rw [Argument.text_of_shed? hshed]

/-- Puts the arguments of a fraction in braces. -/
def shorthandRule : Rule where
  head := command "frac"
  body s :=
    (arguments? s).map fun (a, b, rest) => (command "frac" ++ a.inBraces ++ b.inBraces, rest)
  head_ne_nil := by decide
  body_suffix h := by
    obtain ⟨⟨a, b, rest⟩, hargs, he⟩ := Option.map_eq_some_iff.1 h
    cases he
    rw [append_of_arguments? hargs]
    exact List.suffix_append _ _

/-- Puts the arguments of every fraction in braces that is written in short, in one pass. -/
def braceShorthand (s : Text) : Text := shorthandRule.pass s

end TidyTex.Fraction
