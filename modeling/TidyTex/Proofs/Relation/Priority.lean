import Mathlib.Logic.Function.Iterate
import TidyTex.Proofs.Stability.Isolation

/-! Signs of relations disappear in their order of priority.

    The sign that decides where a text is cut is the first one in the order that occurs in it.
    Behind its last occurrence there is none of it, and of the signs before it there was none to
    begin with:

        occurs          =    \approx   \ge    \le   …
        before          no   no        yes    ?     …
        after the cut   no   no        no     ?     …

    So with each cut the place in the order at which the first sign is found goes up by one at
    least, whatever the cut makes of the signs of lower priority. As many cuts as there are signs
    leave none (`rightHandSide_clears`). -/

namespace TidyTex

open Text

namespace Text

/-- The place in the order of signs of the first one that occurs in a text, or the number of signs
    when none occurs. -/
def firstSign (s : Text) : Nat := relationSigns.findIdx fun sign => decide (sign.spelling <:+: s)

/-- A cut at the first of some signs leaves neither that one nor any before it. -/
theorem not_isInfix_behindFirst (signs : List Sign) (s : Text) :
    ∀ sign ∈ signs.take (signs.findIdx (fun sign => decide (sign.spelling <:+: s)) + 1),
      ¬ sign.spelling <:+: (signs.findSome? fun sign => sign.afterLast? s).getD s := by
  induction signs with
  | nil => nofun
  | cons sign signs ih =>
    rw [List.take_succ_cons, List.forall_mem_cons, List.findIdx_cons]
    by_cases h : sign.spelling <:+: s
    · cases hcut : sign.afterLast? s with
      | none => exact absurd h (Sign.afterLast?_eq_none_iff.1 hcut)
      | some t =>
        rw [List.findSome?_cons_of_isSome (by rw [hcut]; rfl), hcut, decide_eq_true h]
        exact ⟨Sign.not_isInfix_of_afterLast? hcut, nofun⟩
    · have hcut := Sign.afterLast?_eq_none_iff.2 h
      rw [List.findSome?_cons_of_isNone (by rw [hcut]; rfl), decide_eq_false h]
      exact ⟨fun hoccurs => h (hoccurs.trans (behindFirst_suffix signs s).isInfix), ih⟩

/-- A cut leaves neither the first sign of a text nor any before it. -/
theorem not_isInfix_rightHandSide (s : Text) :
    ∀ sign ∈ relationSigns.take (firstSign s + 1), ¬ sign.spelling <:+: rightHandSide s := by
  intro sign hsign h
  exact not_isInfix_behindFirst relationSigns s sign hsign (h.trans (trim_isInfix _))

/-- Where some of the signs do not occur, the first sign is none of them. -/
theorem take_subset_take_firstSign {s : Text} {n : Nat}
    (h : ∀ sign ∈ relationSigns.take n, ¬ sign.spelling <:+: s) :
    relationSigns.take (n + 1) ⊆ relationSigns.take (firstSign s + 1) := by
  by_cases hfirst : firstSign s < relationSigns.length
  · have hoccurs : relationSigns[firstSign s].spelling <:+: s :=
      of_decide_eq_true (List.findIdx_getElem (w := hfirst))
    have hle : n ≤ firstSign s := Nat.le_of_not_lt fun hlt =>
      h _ (List.mem_take_iff_getElem.2 ⟨firstSign s, by omega, rfl⟩) hoccurs
    exact (List.take_sublist_take_left (Nat.succ_le_succ hle)).subset
  · have hall : relationSigns.take (firstSign s + 1) = relationSigns :=
      List.take_of_length_le (by omega)
    rw [hall]
    exact List.take_subset _ _

/-- With each cut one more sign of the order is gone for good. -/
theorem not_isInfix_iterate_rightHandSide (n : Nat) (s : Text) :
    ∀ sign ∈ relationSigns.take n, ¬ sign.spelling <:+: rightHandSide^[n] s := by
  induction n with
  | zero => nofun
  | succ n ih =>
    rw [Function.iterate_succ_apply']
    intro sign hsign
    exact not_isInfix_rightHandSide _ sign (take_subset_take_firstSign ih hsign)

/-- A cut returns a contiguous part of the text with no blank at either end, in which neither the
    first sign of the text occurs nor any of higher priority. So as many cuts as there are signs
    lead from every text to one without signs, which stays as it is. -/
theorem rightHandSide_clears (s : Text) :
    (rightHandSide s <:+: s ∧ Trimmed (rightHandSide s) ∧
      ∀ sign ∈ relationSigns.take (firstSign s + 1), ¬ sign.spelling <:+: rightHandSide s) ∧
    (∀ sign ∈ relationSigns, ¬ sign.spelling <:+: rightHandSide^[relationSigns.length] s) ∧
      rightHandSide (rightHandSide^[relationSigns.length] s) =
        rightHandSide^[relationSigns.length] s := by
  have hnone := not_isInfix_iterate_rightHandSide relationSigns.length s
  rw [List.take_length] at hnone
  have htrimmed : Trimmed (rightHandSide^[relationSigns.length] s) := by
    rw [show relationSigns.length = 7 + 1 from rfl, Function.iterate_succ_apply']
    exact trimmed_trim _
  exact ⟨⟨rightHandSide_isInfix s, trimmed_trim _, not_isInfix_rightHandSide s⟩, hnone,
    rightHandSide_eq_self_iff.2 ⟨hnone, htrimmed⟩⟩

end Text

end TidyTex
