import TidyTex.Brace.Escape
import TidyTex.Proofs.Fraction.Exponent
import TidyTex.Proofs.Fraction.Shorthand
import TidyTex.Proofs.Stability.Rank
import TidyTex.Proofs.Vector
import TidyTex.Canonical

/-! Respelling does not raise the rank of a text.

    What a pass writes weighs no more than what it has read, since what it adds is free: braces, a
    `\bar`, the letters of `\var…`. Where braces are added, the first of them opens behind a script
    mark or a command, so that no bare group comes up before it and none behind it counts. -/

namespace TidyTex

open Text

theorem weight_braced (s : Text) : weight (braced s) = weight s := by
  have hopening : cost '{' = 0 := rfl
  have hclosing : cost '}' = 0 := rfl
  rw [braced, weight_cons, weight_append, weight_cons, weight_nil, hopening, hclosing]
  omega

/-- A group behind a command belongs to it, whatever stands before the command. -/
theorem Mode.owns_after_of_suffix {w s : Text} (hw : all.all (fun m => (m.after w).owns) = true)
    (h : w <:+ s) (m : Mode) : (m.after s).owns = true := by
  obtain ⟨t, rfl⟩ := h
  rw [after_append]
  exact List.all_eq_true.1 hw _ (mem_all _)

/-! ### Tables -/

/-- A table whose entries all ease a text raises its rank nowhere. -/
theorem Replacement.relieves_applyAll {table : List Replacement}
    (h : table.all (fun p => eases p.new p.old) = true) (s : Text) :
    Relieves (applyAll table s) s := by
  refine applyAll_induction (P := fun t => Relieves t s) ?_ (.refl s)
  intro p hp t ht
  refine ht.trans (Rule.relieves_pass ?_ t)
  intro x y u v hw huv
  obtain ⟨rfl, rfl⟩ := writes_rule hw
  exact .append (List.all_eq_true.1 h p hp) huv

theorem relieves_literalBracesToParens (s : Text) : Relieves (literalBracesToParens s) s :=
  Replacement.relieves_applyAll (by decide) s

theorem relieves_unifySpellings (s : Text) : Relieves (unifySpellings s) s :=
  Replacement.relieves_applyAll (by decide) s

/-! ### Fractions and vectors -/

/-- A pass that writes a group behind a command, with no more weight than it has read there, raises
    the rank nowhere. -/
theorem Rule.relieves_pass_of_brace {r : Rule} {w : Text}
    (howns : Mode.all.all (fun m => (m.after w).owns) = true)
    (h : ∀ {x y}, r.Writes x y → ∃ a b, x = w ++ a ∧ y = w ++ b ∧ b.head? = some '{' ∧
      weight b ≤ weight a) (s : Text) : Relieves (r.pass s) s := by
  refine relieves_pass ?_ s
  intro x y s t hw hts
  obtain ⟨a, b, rfl, rfl, hhead, hle⟩ := h hw
  have hrest := hts.weight_le
  rw [List.append_assoc, List.append_assoc]
  refine .of_brace (Mode.owns_after_of_suffix howns List.suffix_rfl) ?_ ?_
  · rw [List.head?_append, hhead, Option.some_or]
  · rw [weight_append, weight_append]
    omega

theorem Fraction.Argument.weight_content (a : Argument) : weight a.content = weight a.text := by
  rcases a.text_eq with h | h
  · rw [h]
  · rw [h, weight_braced]

theorem relieves_braceShorthand (s : Text) : Relieves (Fraction.braceShorthand s) s := by
  refine Rule.relieves_pass_of_brace (w := command "frac") (by decide) ?_ s
  intro x y hw
  obtain ⟨a, b, -, -, rfl, rfl⟩ := Fraction.writes_shorthandRule hw
  refine ⟨_, _, rfl, rfl, rfl, ?_⟩
  rw [weight_append, weight_braced, weight_braced, weight_append, a.weight_content,
    b.weight_content]

theorem relieves_flattenBars (s : Text) : Relieves (Vector.flattenBars s) s := by
  refine Vector.flattenBars_induction (P := fun t => Relieves t s) ?_ (.refl s)
  intro a t ha hat
  refine hat.trans (.of_brace (Mode.owns_after_of_suffix (by decide) ha) rfl ?_)
  refine weight_le_of_sublist (List.Sublist.cons_cons _ ?_)
  conv => rhs; rw [← groupBody_append 0 t]
  exact removeCommand_sublist.append_right _

theorem relieves_moveSubscriptOut (s : Text) : Relieves (Vector.moveSubscriptOut s) s := by
  refine Rule.relieves_pass_of_brace (w := command "vec") (by decide) ?_ s
  intro x y hw
  obtain ⟨base, sub, -, -, rfl, rfl⟩ := Vector.writes_subscriptRule hw
  refine ⟨_, _, rfl, rfl, rfl, ?_⟩
  rw [weight_append, weight_braced, weight_braced, weight_append]

theorem relieves_braceBareArgument (s : Text) : Relieves (Vector.braceBareArgument s) s := by
  refine Rule.relieves_pass_of_brace (w := command "vec") (by decide) ?_ s
  intro x y hw
  obtain ⟨blanks, argument, -, -, rfl, rfl⟩ := Vector.writes_bareArgumentRule hw
  refine ⟨_, _, rfl, rfl, rfl, ?_⟩
  rw [weight_braced, weight_append]
  exact Nat.le_add_left _ _

theorem relieves_arrangeVectors (s : Text) : Relieves (arrangeVectors s) s :=
  ((relieves_flattenBars s).trans (relieves_moveSubscriptOut _)).trans
    (relieves_braceBareArgument _)

theorem relieves_promote (s : Text) : Relieves (Fraction.promote s).1 s := by
  refine repeatAtMost_induction (P := fun t => Relieves t s) ?_ _ (.refl s)
  intro t u htu hts
  obtain ⟨a, b, c, rfl, rfl⟩ := Fraction.promoteOnce?_cases htu
  refine hts.trans ?_
  have hscript := List.suffix_append a ['^']
  rw [List.append_assoc (a ++ ['^']), List.append_assoc (a ++ ['^'])]
  refine .of_brace (Mode.owns_after_of_suffix (by decide) hscript) ?_ ?_
  · rfl
  · rw [weight_append, weight_braced, ← weight_append]

/-! ### All of respelling -/

/-- A text respelled in one form, from its literal spellings to its exponents. -/
def respell (s : Text) : Text :=
  (Fraction.promote (arrangeVectors (Fraction.braceShorthand (unifySpellings s)))).1

/-- Respelling does not raise the rank. -/
theorem relieves_respell (s : Text) : Relieves (respell s) s :=
  (((relieves_unifySpellings s).trans (relieves_braceShorthand _)).trans
    (relieves_arrangeVectors _)).trans (relieves_promote _)

end TidyTex
