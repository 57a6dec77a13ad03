import TidyTex.Proofs.Nesting.Group

/-! The grammar of balanced texts.

        text  ::=  empty  |  c text  |  ( text ) text  |  [ text ] text  |  { text } text

    Here `c` is any character but the six delimiters. The check reads a text once and keeps a stack
    of what is open, while the grammar takes a text apart at its first delimiter. The two meet
    where that delimiter is closed: the texts between its two characters and behind them nest on
    their own (`exists_closing`), and both are shorter. -/

namespace TidyTex

namespace Delimiter

/-- What neither opens nor closes a pair is no delimiter. -/
theorem inert_iff {c : Char} :
    opened? c = none ∧ closed? c = none ↔ ∀ d : Delimiter, c ≠ d.opening ∧ c ≠ d.closing := by
  simp only [Option.eq_none_iff_forall_ne_some, ne_eq, opened?_eq_some_iff, closed?_eq_some_iff,
    forall_and]

end Delimiter

namespace Text

open Delimiter

/-- The texts that the grammar of balanced texts derives. -/
inductive Balanced : Text → Prop
  | nil : Balanced []
  | char {c : Char} {s : Text} (hc : ∀ d : Delimiter, c ≠ d.opening ∧ c ≠ d.closing)
      (hs : Balanced s) : Balanced (c :: s)
  | group (d : Delimiter) {s t : Text} (hs : Balanced s) (ht : Balanced t) :
      Balanced (d.opening :: (s ++ d.closing :: t))

/-- A derived text leaves the stack as it is. -/
theorem Balanced.nests {s : Text} (h : Balanced s) : Nests (fun _ => true) s := by
  induction h with
  | nil => exact nests_nil
  | char hc _ ih =>
    rw [Nests, openAfter_cons_of_inert fun _ => inert_iff.2 hc]
    exact ih
  | group d _ _ ihs iht =>
    rw [Nests, openAfter_pair rfl rfl ihs]
    exact iht

/-- A text that leads from the empty stack back to it is derived. -/
theorem balanced_of_nests {s : Text} (h : Nests (fun _ => true) s) : Balanced s := by
  -- The text behind a closed pair is no tail that structural induction would reach.
  induction hn : s.length using Nat.strongRecOn generalizing s with
  | _ n ih =>
    cases s with
    | nil => exact .nil
    | cons c s =>
      rw [List.length_cons] at hn
      rcases openAfter_cons_cases h with ⟨d, -, hd, hs⟩ | ⟨d, rest, -, -, hnil, -⟩ | ⟨hc, hs⟩
      · obtain rfl : c = d.opening := opened?_eq_some_iff.1 hd
        have hs' : openAfter (fun _ => true) ([] ++ d :: []) s = some [] := hs
        obtain ⟨x, c, t, rfl, -, hcl, hx, ht⟩ := exists_closing hs' (Nat.le_refl _)
        obtain rfl : c = d.closing := closed?_eq_some_iff.1 hcl
        simp only [List.length_append, List.length_cons] at hn
        exact .group d (ih x.length (by omega) hx rfl) (ih t.length (by omega) ht rfl)
      · cases hnil
      · exact .char (inert_iff.1 (hc rfl)) (ih s.length (by omega) hs rfl)

/-- The check accepts exactly the texts that the grammar derives. -/
theorem isBalanced_iff_balanced {s : Text} : isBalanced s = true ↔ Balanced s := by
  rw [isBalanced_iff_nests]
  constructor
  · intro h
    exact balanced_of_nests h
  · intro h
    exact h.nests

end Text

end TidyTex
