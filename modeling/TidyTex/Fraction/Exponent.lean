import TidyTex.Repeat
import TidyTex.Text.Search

/-! Fractions in an exponent get a pair of braces around the whole of them: `^\frac{1}{2}` becomes
    `^{\frac{1}{2}}`.

    The fraction is taken to end right before the brace that closes its second group. That brace
    then closes the new pair, and the brace that closes the new pair ends the group, so that both
    nest. Depth is counted from the fraction on and may fall below zero; a group ends where it comes
    back to zero. -/

namespace TidyTex.Fraction

open Text

/-- The cut right before the brace that closes the last of `groups` groups, at a depth of open
    braces; the end of the text when there is no such brace. -/
def cutGroups (groups : Nat) (depth : Int) : Text → Cut
  | [] => ⟨[], []⟩
  | '{' :: s => (cutGroups groups (depth + 1) s).prepend ['{']
  | '}' :: s =>
    if depth = 1 then
      if groups = 1 then ⟨[], '}' :: s⟩ else (cutGroups (groups - 1) 0 s).prepend ['}']
    else (cutGroups groups (depth - 1) s).prepend ['}']
  | c :: s => (cutGroups groups depth s).prepend [c]

theorem cutGroups_append (groups : Nat) (depth : Int) (s : Text) :
    (cutGroups groups depth s).before ++ (cutGroups groups depth s).after = s := by
  fun_induction cutGroups groups depth s with
  | case1 | case3 => rfl
  | case2 _ _ _ ih | case4 _ _ _ ih | case5 _ _ _ _ ih | case6 _ _ _ _ _ _ ih => simpa using ih

/-- A superscript mark with a fraction right behind it. -/
def exponentHead : Text := '^' :: command "frac"

/-- Puts the first fraction that follows a superscript mark in braces. -/
def promoteOnce? (s : Text) : Option Text :=
  (cutFirst? exponentHead s).map fun k =>
    let fraction := cutGroups 2 0 k.after
    k.before ++ '^' :: (braced (command "frac" ++ fraction.before) ++ fraction.after)

/-- The most fractions that `promote` puts in braces. -/
def maxPromotions : Nat := 100

/-- Puts fractions in exponents in braces, from left to right, and counts them. -/
def promote (s : Text) : Text × Nat := repeatAtMost promoteOnce? maxPromotions s

end TidyTex.Fraction
