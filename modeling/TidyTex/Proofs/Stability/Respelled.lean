import TidyTex.Proofs.Stability.Respelling
import TidyTex.Proofs.Stability.Roughness
import TidyTex.Proofs.Vector.Depth
import TidyTex.Proofs.Vector.LetterBar
import TidyTex.Proofs.Vector.Subscript

/-! Which texts respelling gives back.

    None of the passes makes a text rougher, so in a text that comes back each of them has left the
    roughness as it was. The passes that write braces and most of the spellings can then have found
    nothing. What is left to change such a text and change it back are the bars of letters and of
    vectors and the subscripts of vectors, and of these only a bar that a letter is given in a vector
    is taken back:

        unify        no old spelling but letters that are given a bar
        shorthand    every fraction that is come to has its arguments in groups
        flatten      the bars that letters are given are those that vectors lose
        subscript    no vector has a subscript at the end of its argument
        argument     no vector has an argument without braces
        promote      no fraction follows a superscript mark

    These are all conditions that it takes for a text to come back (`respell_eq_self_iff`). -/

namespace TidyTex

open Text

/-! ### What each pass leaves as it is -/

namespace Fraction

theorem Argument.eq_group_of_text_eq {a : Argument} (h : a.text = braced a.content) :
    a = .group a.content := by
  have hlength := congrArg List.length h
  cases a with
  | group body => rfl
  | command letters | single c => simp [text, content, braced] at hlength

/-- A fraction that is written as it was read has had its arguments in groups. -/
theorem braceShorthand_eq_self_iff {s : Text} : braceShorthand s = s ↔
    ∀ t, shorthandRule.AppliesAt s t → ∃ u x y rest, t = command "frac" ++ u ∧
      arguments? u = some (.group x, .group y, rest) := by
  rw [braceShorthand, Rule.pass_eq_self_iff_appliesAt load load_append
    eq_or_load_lt_of_writes_shorthandRule]
  refine forall₂_congr fun t ht => ?_
  constructor
  · rintro ⟨z, rest, rfl, hfire⟩
    obtain ⟨u, a, b, hu, hargs, rfl⟩ := fire?_shorthandRule_eq_some_iff.1 hfire
    have hload := congrArg load hu
    simp only [append_of_arguments? hargs, Argument.inBraces_eq, load_append] at hload
    have hale := a.load_braced_content_le
    have hble := b.load_braced_content_le
    have ha : a.text = braced a.content := Argument.text_eq_braced_of_load_le (by omega)
    have hb : b.text = braced b.content := Argument.text_eq_braced_of_load_le (by omega)
    rw [Argument.eq_group_of_text_eq ha, Argument.eq_group_of_text_eq hb] at hargs
    exact ⟨u, _, _, rest, hu, hargs⟩
  · rintro ⟨u, x, y, rest, rfl, hargs⟩
    refine ⟨command "frac" ++ (braced x ++ braced y), rest, ?_, ?_⟩
    · rw [append_of_arguments? hargs]
      simp [Argument.text]
    · exact fire?_shorthandRule_eq_some_iff.2 ⟨u, _, _, rfl, hargs, by simp [Argument.inBraces]⟩

theorem promote_eq_self_iff {s : Text} : (promote s).1 = s ↔ ¬ exponentHead <:+: s := by
  have hne : exponentHead ≠ [] := List.cons_ne_nil _ _
  have hcount := (promote_countdown s).2
  rw [← occurrences_eq_zero_iff hne]
  constructor
  · intro h
    rw [h, maxPromotions] at hcount
    omega
  · intro h
    rw [promote, repeatAtMost_of_none (promoteOnce?_eq_none_iff.2 h)]

end Fraction

theorem Vector.braceBareArgument_eq_self_iff {s : Text} : braceBareArgument s = s ↔
    ∀ x t, s = x ++ (command "vec" ++ t) → bareArgument? t = none := by
  rw [braceBareArgument,
    Rule.pass_eq_self_iff load load_append load_lt_of_writes_bareArgumentRule]
  constructor
  · rintro h x t rfl
    have hfire := h _ (List.suffix_append x _)
    cases hk : bareArgument? t with
    | none => rfl
    | some k =>
      rw [fire?_bareArgumentRule_eq_some_iff.2 ⟨t, k.before, rfl, hk, rfl⟩] at hfire
      cases hfire
  · rintro h t ⟨x, rfl⟩
    rw [Option.eq_none_iff_forall_not_mem]
    rintro ⟨y, rest⟩ hfire
    obtain ⟨u, argument, rfl, hu, -⟩ := fire?_bareArgumentRule_eq_some_iff.1 hfire
    rw [h x u rfl] at hu
    cases hu

/-! ### Texts that come back -/

/-- A text whose fractions, vectors and exponents are in their form, and in which no letter is given
    a bar for good. -/
structure Arranged (s : Text) : Prop where
  fractions : ∀ t, Fraction.shorthandRule.AppliesAt (barLetters s) t → ∃ u x y rest,
    t = command "frac" ++ u ∧ Fraction.arguments? u = some (.group x, .group y, rest)
  bars : Vector.BarsStay s
  subscripts : ∀ x, Vector.Subscripted x → ¬ x <:+: s
  arguments : ∀ x t, s = x ++ (command "vec" ++ t) → Vector.bareArgument? t = none
  exponents : ¬ Fraction.exponentHead <:+: s

theorem roughness_moveSubscriptOut_flattenBars_le (s : Text) :
    roughness (Vector.moveSubscriptOut (Vector.flattenBars s)) ≤ roughness s :=
  (roughness_moveSubscriptOut_le _).trans (roughness_flattenBars_le s)

/-- A text that comes back is arranged and has no old spelling but letters that are given a bar. -/
theorem arranged_of_respell_eq_self {s : Text} (h : respell s = s) :
    (∀ p ∈ literalReplacements, p.barsLetter = false → ¬ p.old <:+: s) ∧ Arranged s := by
  obtain ⟨u, hu⟩ : ∃ u, unifySpellings s = u := ⟨_, rfl⟩
  obtain ⟨v, hv⟩ : ∃ v,
      Vector.moveSubscriptOut (Vector.flattenBars (Fraction.braceShorthand u)) = v := ⟨_, rfl⟩
  rw [respell, arrangeVectors, hu, hv] at h
  have hunify : roughness u ≤ roughness s := hu ▸ roughness_unifySpellings_le s
  have hvectors : roughness v ≤ roughness (Fraction.braceShorthand u) :=
    hv ▸ roughness_moveSubscriptOut_flattenBars_le _
  have hdown : roughness v ≤ roughness s :=
    hvectors.trans ((lowers_braceShorthand.le u).trans hunify)
  -- The passes behind the vectors change nothing, as they would make the text smoother.
  have hpromote : (Fraction.promote (Vector.braceBareArgument v)).1 = Vector.braceBareArgument v :=
    lowers_promote.eq_self_of_le (by rw [h]; exact (lowers_braceBareArgument.le v).trans hdown)
  rw [hpromote] at h
  have hargument : Vector.braceBareArgument v = v :=
    lowers_braceBareArgument.eq_self_of_le (by rw [h]; exact hdown)
  rw [hargument] at h hpromote
  subst h
  -- So what the vectors leave is the text itself, and the passes before them change nothing either.
  have hshorthand : Fraction.braceShorthand u = u :=
    lowers_braceShorthand.eq_self_of_le (hunify.trans hvectors)
  rw [hshorthand] at hv hvectors
  have hold := not_isInfix_of_roughness_unifySpellings (hu.symm ▸ hvectors)
  obtain rfl : barLetters v = u := by rw [← hu, unifySpellings_eq_barLetters hold]
  have hbars := Vector.moveSubscriptOut_eq_self_of_eq hv
  rw [hbars] at hv
  exact ⟨hold, Fraction.braceShorthand_eq_self_iff.1 hshorthand,
    Vector.flattenBars_barLetters_eq_self_iff.1 hbars, Vector.moveSubscriptOut_eq_self_iff.1 hv,
    Vector.braceBareArgument_eq_self_iff.1 hargument, Fraction.promote_eq_self_iff.1 hpromote⟩

/-- Such a text comes back. -/
theorem Arranged.respell_eq_self {s : Text} (h : Arranged s)
    (hold : ∀ p ∈ literalReplacements, p.barsLetter = false → ¬ p.old <:+: s) : respell s = s := by
  rw [respell, arrangeVectors, unifySpellings_eq_barLetters hold,
    Fraction.braceShorthand_eq_self_iff.2 h.fractions,
    Vector.flattenBars_barLetters_eq_self_iff.2 h.bars,
    Vector.moveSubscriptOut_eq_self_iff.2 h.subscripts,
    Vector.braceBareArgument_eq_self_iff.2 h.arguments, Fraction.promote_eq_self_iff.2 h.exponents]

theorem respell_eq_self_iff {s : Text} : respell s = s ↔
    (∀ p ∈ literalReplacements, p.barsLetter = false → ¬ p.old <:+: s) ∧ Arranged s :=
  ⟨arranged_of_respell_eq_self, fun ⟨hold, h⟩ => h.respell_eq_self hold⟩

end TidyTex
