import TidyTex.Text.Basic
import TidyTex.Text.DecimalDigit

/-! The arguments of a fraction that is written in short.

    An argument is a command, a digit or letter that stands alone, or a group without inner braces.
    `append_of_read?` says that an argument and what follows it make up the text read. -/

namespace TidyTex.Fraction

open Text

/-- One argument of a fraction. -/
inductive Argument where
  | command (letters : Text)
  | single (c : Char)
  | group (body : Text)
  deriving DecidableEq, Repr

namespace Argument

/-- The argument as it is spelled. -/
def text : Argument → Text
  | command letters => '\\' :: letters
  | single c => [c]
  | group body => braced body

/-- The argument in braces, which a group already has. -/
def inBraces : Argument → Text
  | group body => braced body
  | a => braced a.text

/-- The argument at the head of a text, and what follows it. A command takes all letters it can. -/
def read? : Text → Option (Argument × Text)
  | '\\' :: s =>
    let name := run Char.isAlpha s
    if name.before = [] then none else some (command name.before, name.after)
  | '{' :: s =>
    let body := run (fun c => c != '{' && c != '}') s
    (after? ['}'] body.after).map (group body.before, ·)
  | c :: s => if isDecimalDigit c || c.isAlpha then some (single c, s) else none
  | [] => none

theorem append_of_read? {s t : Text} {a : Argument} (h : read? s = some (a, t)) :
    s = a.text ++ t := by
  unfold read? at h
  split at h
  · next s =>
    simp only at h
    split at h <;> cases h
    simp [text, run_append]
  · next s =>
    simp only at h
    obtain ⟨r, hr, he⟩ := Option.map_eq_some_iff.1 h
    cases he
    conv => lhs; rw [← run_append (fun c => c != '{' && c != '}') s, after?_eq_some_iff.1 hr]
    simp [text, braced]
  · split at h <;> cases h; rfl
  · cases h

/-- A command of two letters or more without its last letter, and that letter. -/
def shed? : Argument → Option (Argument × Argument)
  | command letters =>
    match letters.reverse with
    | last :: c :: letters => some (command (c :: letters).reverse, single last)
    | _ => none
  | _ => none

theorem text_of_shed? {a b c : Argument} (h : a.shed? = some (b, c)) :
    a.text = b.text ++ c.text := by
  unfold shed? at h
  split at h
  · next letters =>
    split at h
    · next last d rest hr =>
      cases h
      rw [text, text, text, ← List.reverse_reverse letters, hr]
      simp
    · cases h
  · cases h

end Argument

end TidyTex.Fraction
