import TidyTex.Text.Rule

/-! Braces after a backslash.

    A backslash escapes the character that follows it, so an escaped brace is a literal one and
    opens no group. `firstBrace?` finds the first brace that does open one, and
    `literalBracesToParens` turns literal braces into parentheses. The latter looks at two
    characters only: in `\\{` it takes the second backslash for the one that escapes. -/

namespace TidyTex.Text

/-- The cut at the first opening brace that is not escaped. -/
def firstBrace? : Text → Option Cut
  | '\\' :: c :: s => (firstBrace? s).map (·.prepend ['\\', c])
  | '{' :: s => some ⟨[], s⟩
  | c :: s => (firstBrace? s).map (·.prepend [c])
  | [] => none

theorem append_of_firstBrace? {s : Text} {k : Cut} (h : firstBrace? s = some k) :
    s = k.before ++ '{' :: k.after := by
  fun_induction firstBrace? s generalizing k with
  | case1 c s ih | case3 c s _ _ ih =>
    obtain ⟨j, hj, rfl⟩ := Option.map_eq_some_iff.1 h
    simpa using ih hj
  | case2 s => cases h; rfl
  | case4 => cases h

/-- The spellings of literal braces, with the parentheses that stand for them. -/
def literalBraces : List Replacement :=
  [⟨['\\', '{'], ['('], by decide⟩, ⟨['\\', '}'], [')'], by decide⟩]

/-- A text with parentheses in place of literal braces, all opening ones first. -/
def literalBracesToParens (s : Text) : Text := Replacement.applyAll literalBraces s

end TidyTex.Text
