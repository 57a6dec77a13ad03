import TidyTex.Fraction.Shorthand
import TidyTex.Proofs.Nesting.Brace
import TidyTex.Proofs.Nesting.Rewriting

/-! What is written for a fraction in short.

    Both arguments are read off the text and written in braces (`writes_shorthandRule`), and what
    stands inside those braces holds none itself (`isBrace_eq_false_of_mem_content`). So the pass
    adds pairs of braces around pieces without braces, and nothing else. -/

namespace TidyTex.Fraction

open Text

namespace Argument

/-- The text of an argument without the braces that it may have. -/
def content : Argument → Text
  | group body => body
  | a => a.text

theorem text_eq (a : Argument) : a.text = a.content ∨ a.text = braced a.content := by
  cases a with
  | group body => exact Or.inr rfl
  | _ => exact Or.inl rfl

theorem inBraces_eq (a : Argument) : a.inBraces = braced a.content := by
  cases a <;> rfl

/-- Whether an argument holds what its kind allows. -/
def WellFormed : Argument → Prop
  | command letters => letters ≠ [] ∧ ∀ c ∈ letters, c.isAlpha = true
  | single c => isDecimalDigit c = true ∨ c.isAlpha = true
  | group body => ∀ c ∈ body, isBrace c = false

theorem wellFormed_of_read? {s t : Text} {a : Argument} (h : read? s = some (a, t)) :
    a.WellFormed := by
  unfold read? at h
  split at h
  · next s =>
    simp only at h
    split at h
    · cases h
    · next hne => cases h; exact ⟨hne, fun c hc => of_mem_before_run hc⟩
  · next s =>
    simp only at h
    obtain ⟨r, -, he⟩ := Option.map_eq_some_iff.1 h
    cases he
    intro c hc
    have hp := of_mem_before_run hc
    simpa [isBrace] using hp
  · split at h
    · next c s _ _ hc => cases h; simpa [WellFormed] using hc
    · cases h
  · cases h

theorem wellFormed_of_shed? {a b c : Argument} (ha : a.WellFormed) (h : a.shed? = some (b, c)) :
    b.WellFormed ∧ c.WellFormed := by
  unfold shed? at h
  split at h
  · next letters =>
    split at h
    · next last d rest hr =>
      cases h
      have hmem : ∀ e ∈ last :: d :: rest, e.isAlpha = true := by
        intro e he
        rw [← hr, List.mem_reverse] at he
        exact ha.2 e he
      refine ⟨⟨by simp, fun e he => hmem e ?_⟩, Or.inr (hmem last (List.mem_cons_self ..))⟩
      rw [List.mem_reverse] at he
      exact List.mem_cons_of_mem last he
    · cases h
  · cases h

/-- Nothing inside the braces of an argument is a brace. -/
theorem isBrace_eq_false_of_mem_content {a : Argument} (ha : a.WellFormed) :
    ∀ c ∈ a.content, isBrace c = false := by
  cases a with
  | command letters =>
    intro c hc
    rcases List.mem_cons.1 hc with rfl | hc
    · rfl
    · exact isBrace_eq_false_of_kind rfl rfl (ha.2 c hc)
  | single d =>
    intro c hc
    cases List.mem_singleton.1 hc
    rcases ha with hd | hd
    · exact isBrace_eq_false_of_kind rfl rfl hd
    · exact isBrace_eq_false_of_kind rfl rfl hd
  | group body => exact ha

theorem nests_content {a : Argument} (ha : a.WellFormed) : Nests isBrace a.content :=
  nests_of_not_seen (isBrace_eq_false_of_mem_content ha)

theorem nests_text {a : Argument} (ha : a.WellFormed) : Nests isBrace a.text := by
  rcases a.text_eq with h | h
  · rw [h]
    exact nests_content ha
  · rw [h]
    exact nests_braced seesBraces_isBrace (nests_content ha)

/-- Braces apart, an argument in braces is what it was without. -/
theorem filter_braced_content {p : Char → Bool} (ho : p '{' = false) (hc : p '}' = false)
    (a : Argument) : (braced a.content).filter p = a.text.filter p := by
  rcases a.text_eq with h | h
  · rw [h, filter_braced ho hc]
  · rw [h]

end Argument

theorem wellFormed_of_arguments? {s t : Text} {a b : Argument}
    (h : arguments? s = some (a, b, t)) : a.WellFormed ∧ b.WellFormed := by
  obtain ⟨⟨first, rest⟩, hfirst, h⟩ := Option.bind_eq_some_iff.1 h
  have hwf := Argument.wellFormed_of_read? hfirst
  simp only at h
  split at h
  · next second rest' hsecond =>
    cases h
    exact ⟨hwf, Argument.wellFormed_of_read? hsecond⟩
  · obtain ⟨⟨a', b'⟩, hshed, he⟩ := Option.map_eq_some_iff.1 h
    cases he
    exact Argument.wellFormed_of_shed? hwf hshed

theorem fire?_shorthandRule_eq_some_iff {s y rest : Text} :
    shorthandRule.fire? s = some (y, rest) ↔
      ∃ t a b, s = command "frac" ++ t ∧ arguments? t = some (a, b, rest) ∧
        y = command "frac" ++ a.inBraces ++ b.inBraces := by
  rw [Rule.fire?_eq_some_iff]
  constructor
  · rintro ⟨t, rfl, h⟩
    obtain ⟨⟨a, b, rest'⟩, hargs, he⟩ := Option.map_eq_some_iff.1 h
    cases he
    exact ⟨t, a, b, rfl, hargs, rfl⟩
  · rintro ⟨t, a, b, rfl, hargs, rfl⟩
    exact ⟨t, rfl, Option.map_eq_some_iff.2 ⟨(a, b, rest), hargs, rfl⟩⟩

/-- What is read for a fraction in short, and what is written for it. -/
theorem writes_shorthandRule {x y : Text} (h : shorthandRule.Writes x y) :
    ∃ a b : Argument, a.WellFormed ∧ b.WellFormed ∧
      x = command "frac" ++ (a.text ++ b.text) ∧
      y = command "frac" ++ (braced a.content ++ braced b.content) := by
  obtain ⟨rest, h⟩ := h
  obtain ⟨t, a, b, hx, hargs, rfl⟩ := fire?_shorthandRule_eq_some_iff.1 h
  obtain ⟨ha, hb⟩ := wellFormed_of_arguments? hargs
  rw [append_of_arguments? hargs, ← List.append_assoc] at hx
  refine ⟨a, b, ha, hb, List.append_cancel_right hx, ?_⟩
  rw [Argument.inBraces_eq, Argument.inBraces_eq, List.append_assoc]

/-- Bracing fractions keeps the nesting of braces. -/
theorem nests_braceShorthand_iff {s : Text} :
    Nests isBrace (braceShorthand s) ↔ Nests isBrace s := by
  have hhead : Nests isBrace (command "frac") := rfl
  refine Rule.nests_pass_iff ?_
  intro x y hw
  obtain ⟨a, b, ha, hb, rfl, rfl⟩ := writes_shorthandRule hw
  have hbraced : ∀ {c : Argument}, c.WellFormed → Nests isBrace (braced c.content) :=
    fun hc => nests_braced seesBraces_isBrace (Argument.nests_content hc)
  exact ⟨hhead.append ((Argument.nests_text ha).append (Argument.nests_text hb)),
    hhead.append ((hbraced ha).append (hbraced hb))⟩

/-- Bracing fractions changes nothing but braces. -/
theorem filter_braceShorthand {p : Char → Bool} (ho : p '{' = false) (hc : p '}' = false)
    (s : Text) : (braceShorthand s).filter p = s.filter p := by
  refine Rule.filter_pass ?_ s
  intro x y hw
  obtain ⟨a, b, -, -, rfl, rfl⟩ := writes_shorthandRule hw
  simp only [List.filter_append, Argument.filter_braced_content ho hc]

end TidyTex.Fraction
