import TidyTex.Fraction.Exponent
import TidyTex.Proofs.Nesting.Brace
import TidyTex.Proofs.Occurrence

/-! What a promotion of a fraction in an exponent does to a text.

    However the braces around it stand, it puts one pair of braces around some part of the text that
    begins with a fraction (`promoteOnce?_cases`). That part may begin in one group and end in
    another, so this is where a pair of braces can cross the others.

    The new braces part one `^` from its fraction and no other, since the closing one stands at a
    brace or at the end of the text. So each promotion uses up one occurrence of `^\frac`
    (`occurrences_promoteOnce?`), and a run uses up as many as it may (`promote_countdown`). -/

namespace TidyTex.Fraction

open Text

/-- What follows the fraction begins with a closing brace, unless it is empty. -/
theorem after_cutGroups (groups : Nat) (depth : Int) (s : Text) :
    (cutGroups groups depth s).after = [] ∨ ∃ t, (cutGroups groups depth s).after = '}' :: t := by
  fun_induction cutGroups groups depth s with
  | case1 => exact Or.inl rfl
  | case3 s => exact Or.inr ⟨s, rfl⟩
  | case2 _ _ _ ih | case4 _ _ _ ih | case5 _ _ _ _ ih | case6 _ _ _ _ _ _ ih => simpa using ih

/-- A promotion puts braces around a part of the text that begins with the first fraction behind a
    superscript mark and ends at a closing brace or with the text. -/
theorem exists_of_promoteOnce? {s t : Text} (h : promoteOnce? s = some t) :
    ∃ a b c, ¬ exponentHead <:+: a ∧ (c = [] ∨ ∃ u, c = '}' :: u) ∧
      s = a ++ '^' :: (command "frac" ++ b ++ c) ∧
        t = a ++ '^' :: (braced (command "frac" ++ b) ++ c) := by
  obtain ⟨k, hk, rfl⟩ := Option.map_eq_some_iff.1 h
  refine ⟨k.before, (cutGroups 2 0 k.after).before, (cutGroups 2 0 k.after).after,
    not_isInfix_before_cutFirst? (List.cons_ne_nil _ _) hk, after_cutGroups 2 0 k.after, ?_, rfl⟩
  rw [List.append_assoc, cutGroups_append]
  simpa [exponentHead] using append_of_cutFirst? hk

theorem promoteOnce?_cases {s t : Text} (h : promoteOnce? s = some t) :
    ∃ a b c, s = (a ++ ['^']) ++ (command "frac" ++ b) ++ c ∧
      t = (a ++ ['^']) ++ braced (command "frac" ++ b) ++ c := by
  obtain ⟨a, b, c, -, -, rfl, rfl⟩ := exists_of_promoteOnce? h
  exact ⟨a, b, c, by simp, by simp⟩

/-- Promoting a fraction keeps braces balanced. -/
theorem nests_promoteOnce? {s t : Text} (h : promoteOnce? s = some t) (hs : Nests isBrace s) :
    Nests isBrace t := by
  obtain ⟨a, b, c, rfl, rfl⟩ := promoteOnce?_cases h
  exact braceBalanced_iff_nests.1 (braceBalanced_insert (braceBalanced_iff_nests.2 hs))

/-! ### Occurrences are used up one by one -/

/-- A promotion takes one fraction away from behind a superscript mark. -/
theorem occurrences_promoteOnce? {s t : Text} (h : promoteOnce? s = some t) :
    occurrences exponentHead t + 1 = occurrences exponentHead s := by
  obtain ⟨a, b, c, -, hc, rfl, rfl⟩ := exists_of_promoteOnce? h
  have hmark : '^' ∉ command "frac" := by decide
  have hclosing : '}' ∉ command "frac" := by decide
  -- The opening brace stands behind `^`, so what begins there is no occurrence any more.
  have ht : occurrences exponentHead (a ++ '^' :: (braced (command "frac" ++ b) ++ c)) =
      occurrences exponentHead a +
        (occurrences exponentHead (command "frac" ++ b) + occurrences exponentHead c) := by
    have hno : ¬ '^' :: command "frac" <+: '^' :: '{' :: (command "frac" ++ b ++ '}' :: c) := by
      rw [List.cons_prefix_cons, command, List.cons_prefix_cons]
      exact fun hp => absurd hp.2.1 (by decide)
    rw [exponentHead, occurrences_append_cons hmark, braced_append, occurrences_cons, if_neg hno,
      occurrences_cons_of_ne (by decide), occurrences_append_cons hclosing,
      occurrences_cons_of_ne (by decide), Nat.add_zero]
  have hs : occurrences exponentHead (command "frac" ++ b ++ c) =
      occurrences exponentHead (command "frac" ++ b) + occurrences exponentHead c := by
    rcases hc with rfl | ⟨c, rfl⟩
    · rw [List.append_nil, exponentHead, occurrences_nil (List.cons_ne_nil _ _), Nat.add_zero]
    · rw [exponentHead, occurrences_append_cons hclosing]
  have hocc : '^' :: command "frac" <+: '^' :: (command "frac" ++ b ++ c) := by
    rw [List.append_assoc]
    exact List.prefix_append ('^' :: command "frac") (b ++ c)
  rw [ht, exponentHead, occurrences_append_cons hmark, occurrences_cons, if_pos hocc,
    ← exponentHead, hs]
  omega

theorem promoteOnce?_eq_none_iff {s : Text} :
    promoteOnce? s = none ↔ occurrences exponentHead s = 0 := by
  have hne : exponentHead ≠ [] := List.cons_ne_nil _ _
  rw [promoteOnce?, Option.map_eq_none_iff, cutFirst?_eq_none_iff, occurrences_eq_zero_iff hne]

/-- Promotion goes on until no fraction follows a superscript mark, or until its limit. -/
theorem promote_countdown (s : Text) :
    (promote s).2 = min maxPromotions (occurrences exponentHead s) ∧
      occurrences exponentHead (promote s).1 = occurrences exponentHead s - maxPromotions :=
  repeatAtMost_countdown (occurrences exponentHead) occurrences_promoteOnce?
    promoteOnce?_eq_none_iff.1 maxPromotions s

/-! ### All else stays -/

/-- Promoting a fraction changes nothing but braces. -/
theorem filter_promoteOnce? {p : Char → Bool} (ho : p '{' = false) (hc : p '}' = false)
    {s t : Text} (h : promoteOnce? s = some t) : t.filter p = s.filter p := by
  obtain ⟨a, b, c, rfl, rfl⟩ := promoteOnce?_cases h
  simp only [List.filter_append, filter_braced ho hc]

end TidyTex.Fraction
