import TidyTex.Brace.Escape
import TidyTex.Text.Alphabetic

/-! The owner of a group is what the group is an argument of: a script mark or a command.

    It is found by reading leftwards from the opening brace. First come spaces, tabs, lone opening
    brackets and whole bracket groups, which are passed over:

        x ^ {          superscript        \sqrt[3] {     command `\sqrt`
        x _ {          subscript          \frac1{        command `\frac1`
        x + {          none               \ {            none

    The character then reached ends a command name even when it is not a letter. -/

namespace TidyTex

/-- What a group is an argument of. -/
inductive Owner where
  | superscript
  | subscript
  | command (name : Text)
  deriving DecidableEq, Repr

namespace Owner

/-- The owner as it is spelled, a command with its backslash. -/
def text : Owner → Text
  | superscript => ['^']
  | subscript => ['_']
  | command name => '\\' :: name

/-- Whether the owner is a script mark. -/
def isScript : Owner → Bool
  | superscript | subscript => true
  | command _ => false

/-- Passes over spaces, tabs, opening brackets and bracket groups of a reversed text; `inside` tells
    that a closing bracket has been read and its opening one has not. -/
def skipGap : Bool → Text → Text
  | _, [] => []
  | true, c :: s => skipGap (c != '[') s
  | false, c :: s =>
    if c = ']' then skipGap true s
    else if c = ' ' ∨ c = '\t' ∨ c = '[' then skipGap false s
    else c :: s

/-- The owner at the head of a reversed text. -/
def read? : Text → Option Owner
  | [] => none
  | '^' :: _ => some superscript
  | '_' :: _ => some subscript
  | '\\' :: _ => none
  | c :: s =>
    let name := Text.run isAlphabetic s
    if name.after.head? = some '\\' then some (command (c :: name.before).reverse) else none

end Owner

namespace Text

/-- The owner of a group that opens right after a text. -/
def owner? (s : Text) : Option Owner := Owner.read? (Owner.skipGap false s.reverse)

/-- The owner of the group that opens at offset `p`. -/
def ownerAt? (s : Text) (p : Nat) : Option Owner := (cutAt? s p).bind fun k => owner? k.before

/-- The owner of the first group that is not escaped. -/
def firstOwner? (s : Text) : Option Owner := (firstBrace? s).bind fun k => owner? k.before

end Text

end TidyTex
