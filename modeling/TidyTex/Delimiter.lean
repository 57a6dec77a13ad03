import TidyTex.Text.Basic

/-! Delimiters come in three pairs, `(` `)`, `[` `]` and `{` `}`, and a text is balanced when they
    nest.

    The check is a fold over the text that carries the stack of delimiters still open:

        opening  ──▶ pushed on the stack
        closing  ──▶ pops its own partner; with any other top, or none, the fold fails
        other    ──▶ passed over

    A backslash in front of a delimiter makes no difference here. -/

namespace TidyTex

/-- A pair of delimiters. -/
inductive Delimiter where
  | paren
  | bracket
  | brace
  deriving DecidableEq, Repr

namespace Delimiter

/-- The pair that a character opens, if it opens one. -/
def opened? : Char → Option Delimiter
  | '(' => some paren
  | '[' => some bracket
  | '{' => some brace
  | _ => none

/-- The pair that a character closes, if it closes one. -/
def closed? : Char → Option Delimiter
  | ')' => some paren
  | ']' => some bracket
  | '}' => some brace
  | _ => none

/-- The open delimiters after one more character, unless it closes what is not open on top. -/
def step (stack : List Delimiter) (c : Char) : Option (List Delimiter) :=
  match opened? c with
  | some d => some (d :: stack)
  | none =>
    match closed? c with
    | none => some stack
    | some d =>
      match stack with
      | top :: rest => if top = d then some rest else none
      | [] => none

end Delimiter

namespace Text

/-- Whether all delimiters of a text nest and are closed. -/
def isBalanced (s : Text) : Bool := s.foldlM Delimiter.step [] == some []

theorem isBalanced_iff {s : Text} : isBalanced s = true ↔ s.foldlM Delimiter.step [] = some [] := by
  rw [isBalanced, beq_iff_eq]

end Text

end TidyTex
