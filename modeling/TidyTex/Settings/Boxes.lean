import TidyTex.Report
import TidyTex.Text.Blank

/-! Which boxed groups of a text a reader of expressions uses. -/

namespace TidyTex

/-- A choice among the boxed groups of a text. -/
inductive Boxes where
  | all
  | last
  | ignored
  deriving DecidableEq, Repr

namespace Boxes

/-- The word for a choice. -/
def keyword : Boxes → String
  | all => "all"
  | last => "last"
  | ignored => "none"

/-- The choice that a word stands for. -/
def ofKeyword? (word : Text) : Option Boxes :=
  [all, last, ignored].find? fun boxes => boxes.keyword.toList = word

theorem ofKeyword?_eq_some_iff {word : Text} {boxes : Boxes} :
    ofKeyword? word = some boxes ↔ boxes.keyword.toList = word := by
  constructor
  · intro h
    simpa using List.find?_some h
  · rintro rfl
    cases boxes <;> decide

/-- Reads a choice from a word in any case, with blanks around it. -/
def parse (s : Text) : Except Error Boxes :=
  let word := (Text.trim s).map Char.toLower
  match ofKeyword? word with
  | some boxes => .ok boxes
  | none =>
    .error (.invalidInput ("unknown boxed mode '".toList ++ word ++
      "' (expected all, last or none)".toList))

end Boxes

end TidyTex
