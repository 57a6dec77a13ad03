import TidyTex.Sign
import TidyTex.Text.Blank
import TidyTex.Text.Search

/-! The right-hand side of the last relation in a text.

    Relation signs have an order of priority, and the first of them that occurs anywhere decides
    where the text is cut: behind its last occurrence. A command sign takes the letters that
    continue it along, so that `\ge` found inside `\geq` cuts behind the whole of it. -/

namespace TidyTex

/-- The signs of relations, the one that decides first in front. -/
def relationSigns : List Sign :=
  [.symbol '=', .command "approx", .command "ge", .command "le", .command "geq", .command "leq",
    .symbol '<', .symbol '>']

/-- What follows an occurrence of a sign, without the letters that continue a command. -/
def Sign.passOver : Sign → Text → Text
  | symbol _, s => s
  | command _, s => s.dropWhile Char.isAlpha

theorem Sign.passOver_suffix (sign : Sign) (s : Text) : sign.passOver s <:+ s := by
  cases sign with
  | symbol c => exact List.suffix_rfl
  | command name => exact List.dropWhile_suffix _

/-- What follows the last occurrence of a sign. -/
def Sign.afterLast? (sign : Sign) (s : Text) : Option Text :=
  (Text.cutLast? sign.spelling s).map fun k => sign.passOver k.after

theorem Sign.afterLast?_suffix {sign : Sign} {s t : Text} (h : sign.afterLast? s = some t) :
    t <:+ s := by
  obtain ⟨k, hk, rfl⟩ := Option.map_eq_some_iff.1 h
  rw [Text.append_of_cutLast? hk]
  exact (sign.passOver_suffix _).trans (List.suffix_append _ _)

theorem Sign.afterLast?_eq_none_iff {sign : Sign} {s : Text} :
    sign.afterLast? s = none ↔ ¬ sign.spelling <:+: s := by
  rw [afterLast?, Option.map_eq_none_iff, Text.cutLast?_eq_none_iff]

/-- Behind its last occurrence a sign does not occur. -/
theorem Sign.not_isInfix_of_afterLast? {sign : Sign} {s t : Text}
    (h : sign.afterLast? s = some t) : ¬ sign.spelling <:+: t := by
  obtain ⟨k, hk, rfl⟩ := Option.map_eq_some_iff.1 h
  intro hoccurs
  exact Text.not_isInfix_after_cutLast? sign.spelling_ne_nil hk
    (hoccurs.trans (sign.passOver_suffix k.after).isInfix)

namespace Text

/-- The text behind the first of some signs that occurs is an end of the text. -/
theorem behindFirst_suffix (signs : List Sign) (s : Text) :
    (signs.findSome? fun sign => sign.afterLast? s).getD s <:+ s := by
  cases h : signs.findSome? fun sign => sign.afterLast? s with
  | none => exact List.suffix_rfl
  | some t =>
    obtain ⟨sign, -, hsign⟩ := List.exists_of_findSome?_eq_some h
    exact Sign.afterLast?_suffix hsign

/-- The trimmed text behind the last relation, or the whole text trimmed when it has none. -/
def rightHandSide (s : Text) : Text :=
  trim ((relationSigns.findSome? fun sign => sign.afterLast? s).getD s)

theorem rightHandSide_isInfix (s : Text) : rightHandSide s <:+: s :=
  (trim_isInfix _).trans (behindFirst_suffix relationSigns s).isInfix

end Text

end TidyTex
