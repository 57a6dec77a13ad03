import TidyTex.Text.Basic

/-! A sign of mathematics is spelled either as a character or as a command. -/

namespace TidyTex

/-- A sign, by the way it is spelled. -/
inductive Sign where
  | symbol (c : Char)
  | command (name : String)
  deriving DecidableEq, Repr

/-- The text of a sign. -/
def Sign.spelling : Sign → Text
  | symbol c => [c]
  | command name => TidyTex.command name

theorem Sign.spelling_ne_nil (sign : Sign) : sign.spelling ≠ [] := by
  cases sign <;> exact List.cons_ne_nil _ _

end TidyTex
