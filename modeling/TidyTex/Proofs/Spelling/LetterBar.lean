import TidyTex.Proofs.Nesting.Brace
import TidyTex.Proofs.Nesting.Rewriting
import TidyTex.Proofs.Replacement
import TidyTex.Spelling

/-! Letters that are given a bar.

    Three entries of the table of spellings put a bar on a letter: on every `I`, and on an `e` or an
    `E` in front of `_`. None of them takes up what another one has written, so the three together
    are one run along the text (`applyAll_letterBars`):

        I e_ E_ e    ──▶    \bar{I} \bar{e}_ \bar{E}_ e

    A text without such a letter stays as it is, and one with such a letter does not
    (`barLetters_eq_self_iff`), not even when the letter stands in a `\bar` already. -/

namespace TidyTex

/-- Whether an entry puts a bar on a letter. -/
def Replacement.barsLetter (p : Replacement) : Bool :=
  '\\' ∉ p.old && (command "bar").isPrefixOf p.new

/-- The entries that put a bar on a letter. -/
def letterBars : List Replacement := literalReplacements.filter Replacement.barsLetter

namespace Text

/-- A text with a bar on each letter that is given one. -/
def barLetters : Text → Text
  | [] => []
  | 'I' :: s => barred "I" ++ barLetters s
  | 'e' :: '_' :: s => barred "e" ++ '_' :: barLetters s
  | 'E' :: '_' :: s => barred "E" ++ '_' :: barLetters s
  | c :: s => c :: barLetters s

/-- Whether no letter of a text is given a bar. -/
def Unbarrable (s : Text) : Prop := ∀ p ∈ letterBars, ¬ p.old <:+: s

theorem barLetters_cons {c : Char} {s : Text} (hunit : c ≠ 'I')
    (hmark : c = 'e' ∨ c = 'E' → s.head? ≠ some '_') : barLetters (c :: s) = c :: barLetters s := by
  rw [barLetters]
  · exact hunit
  · rintro t rfl rfl
    exact hmark (Or.inl rfl) rfl
  · rintro t rfl rfl
    exact hmark (Or.inr rfl) rfl

/-! ### One run along the text -/

/-- The entry for `I`. -/
def unitBar : Replacement := ⟨['I'], barred "I", List.cons_ne_nil _ _⟩

/-- The entry for `e` in front of `_`. -/
def lowerBar : Replacement := ⟨['e', '_'], barred "e" ++ ['_'], List.cons_ne_nil _ _⟩

/-- The entry for `E` in front of `_`. -/
def upperBar : Replacement := ⟨['E', '_'], barred "E" ++ ['_'], List.cons_ne_nil _ _⟩

theorem letterBars_eq : letterBars = [unitBar, lowerBar, upperBar] := rfl

section
variable {x : Text} (s : Text)

theorem unitBar_append (hx : 'I' ∉ x) : unitBar.apply (x ++ s) = x ++ unitBar.apply s :=
  Replacement.apply_append_of_not_mem rfl hx s

theorem lowerBar_append (hx : 'e' ∉ x) : lowerBar.apply (x ++ s) = x ++ lowerBar.apply s :=
  Replacement.apply_append_of_not_mem rfl hx s

theorem upperBar_append (hx : 'E' ∉ x) : upperBar.apply (x ++ s) = x ++ upperBar.apply s :=
  Replacement.apply_append_of_not_mem rfl hx s

end

/-- What is written for a letter starts with a backslash, so `_` stands at the head of a text only
    if it did before. -/
theorem isPrefix_of_isPrefix_apply_mark {p : Replacement} {a c : Char} {s : Text}
    (hnew : p.new.head? = some '\\') (h : [a, '_'] <+: c :: p.apply s) : [a, '_'] <+: c :: s := by
  obtain ⟨rfl, t, ht⟩ := List.cons_prefix_cons.1 h
  have hhead : s.head? = some '_' :=
    Replacement.head?_of_head?_apply hnew (by decide) (by rw [← ht]; rfl)
  obtain ⟨u, rfl⟩ := List.head?_eq_some_iff.1 hhead
  exact List.prefix_append [a, '_'] u

/-- Letters are given bars by the three entries, one after the other. -/
theorem applyAll_letterBars (s : Text) : Replacement.applyAll letterBars s = barLetters s := by
  show upperBar.apply (lowerBar.apply (unitBar.apply s)) = barLetters s
  fun_induction barLetters s with
  | case1 => simp
  | case2 s ih =>
    calc upperBar.apply (lowerBar.apply (unitBar.apply (['I'] ++ s)))
        = upperBar.apply (lowerBar.apply (barred "I" ++ unitBar.apply s)) :=
          congrArg (fun t => upperBar.apply (lowerBar.apply t)) (unitBar.apply_append s)
      _ = barred "I" ++ upperBar.apply (lowerBar.apply (unitBar.apply s)) := by
          rw [lowerBar_append _ (by decide), upperBar_append _ (by decide)]
      _ = barred "I" ++ barLetters s := by rw [ih]
  | case3 s ih =>
    calc upperBar.apply (lowerBar.apply (unitBar.apply (['e', '_'] ++ s)))
        = upperBar.apply (lowerBar.apply (['e', '_'] ++ unitBar.apply s)) := by
          rw [unitBar_append s (by decide)]
      _ = upperBar.apply ((barred "e" ++ ['_']) ++ lowerBar.apply (unitBar.apply s)) :=
          congrArg upperBar.apply (lowerBar.apply_append _)
      _ = (barred "e" ++ ['_']) ++ barLetters s := by rw [upperBar_append _ (by decide), ih]
      _ = barred "e" ++ '_' :: barLetters s := List.append_assoc ..
  | case4 s ih =>
    calc upperBar.apply (lowerBar.apply (unitBar.apply (['E', '_'] ++ s)))
        = upperBar.apply (['E', '_'] ++ lowerBar.apply (unitBar.apply s)) := by
          rw [unitBar_append s (by decide), lowerBar_append _ (by decide)]
      _ = (barred "E" ++ ['_']) ++ upperBar.apply (lowerBar.apply (unitBar.apply s)) :=
          upperBar.apply_append _
      _ = (barred "E" ++ ['_']) ++ barLetters s := by rw [ih]
      _ = barred "E" ++ '_' :: barLetters s := List.append_assoc ..
  | case5 c s hunit hlower hupper ih =>
    have hc : 'I' ∉ [c] := fun hmem => hunit (List.mem_singleton.1 hmem).symm
    have hfirst : unitBar.apply (c :: s) = c :: unitBar.apply s := unitBar_append s hc
    have hsecond : ¬ lowerBar.old <+: c :: unitBar.apply s := by
      intro hp
      obtain ⟨t, ht⟩ := isPrefix_of_isPrefix_apply_mark rfl hp
      obtain ⟨rfl, rfl⟩ := List.cons.inj ht
      exact hlower t rfl rfl
    have hthird : ¬ upperBar.old <+: c :: lowerBar.apply (unitBar.apply s) := by
      intro hp
      obtain ⟨t, ht⟩ :=
        isPrefix_of_isPrefix_apply_mark rfl (isPrefix_of_isPrefix_apply_mark rfl hp)
      obtain ⟨rfl, rfl⟩ := List.cons.inj ht
      exact hupper t rfl rfl
    rw [hfirst, Replacement.apply_cons_of_not_isPrefix hsecond,
      Replacement.apply_cons_of_not_isPrefix hthird, ih]

/-- Bars make a text longer, so a text that is given none has no letter for them. -/
theorem barLetters_eq_self_iff {s : Text} : barLetters s = s ↔ Unbarrable s := by
  rw [← applyAll_letterBars]
  refine ⟨fun h => ?_, Replacement.applyAll_eq_self⟩
  have hlonger : ∀ p ∈ letterBars, -(p.new.length : Int) < -(p.old.length : Int) := by decide
  refine Replacement.not_isInfix_of_size_le (fun t => -(t.length : Int)) ?_ hlonger ?_
  · intro s t
    rw [List.length_append]
    omega
  · exact Int.le_of_eq (congrArg (fun t : Text => -(t.length : Int)) h.symm)

/-- The bars on both sides of a place are independent, unless a `_` is behind it. -/
theorem barLetters_append {x y : Text} (h : y.head? ≠ some '_') :
    barLetters (x ++ y) = barLetters x ++ barLetters y := by
  fun_induction barLetters x with
  | case1 => rfl
  | case2 x ih | case3 x ih | case4 x ih => simp [barLetters, ih]
  | case5 c x hunit hlower hupper ih =>
    rw [List.cons_append, barLetters_cons hunit, ih, List.cons_append]
    intro hc hhead
    cases x with
    | nil => exact h hhead
    | cons d x =>
      obtain rfl : d = '_' := Option.some.inj hhead
      rcases hc with rfl | rfl
      · exact hlower x rfl rfl
      · exact hupper x rfl rfl

/-- A bar brings both braces of its group, so what is open stays open. -/
theorem openAfter_barLetters (stack : List Delimiter) (s : Text) :
    openAfter isBrace stack (barLetters s) = openAfter isBrace stack s := by
  have hnests : ∀ p ∈ letterBars, Nests isBrace p.old ∧ Nests isBrace p.new := by decide
  rw [← applyAll_letterBars]
  refine Replacement.applyAll_induction
    (P := fun t => openAfter isBrace stack t = openAfter isBrace stack s) ?_ rfl
  intro p hp t ht
  rw [Replacement.apply, Rule.openAfter_pass, ht]
  intro x y hw stack
  obtain ⟨rfl, rfl⟩ := Replacement.writes_rule hw
  obtain ⟨hold, hnew⟩ := hnests p hp
  rw [hold.openAfter, hnew.openAfter]

/-- What shares no characters with the entries for bars occurs as often as before. -/
theorem occurrences_barLetters {w : Text} (hne : w ≠ [])
    (hclear : ∀ p ∈ letterBars, Clear w p.old ∧ Clear w p.new) (s : Text) :
    occurrences w (barLetters s) = occurrences w s := by
  rw [← applyAll_letterBars]
  refine Replacement.applyAll_induction (P := fun t => occurrences w t = occurrences w s) ?_ rfl
  intro p hp t ht
  rw [Replacement.occurrences_apply hne (hclear p hp).1 (hclear p hp).2, ht]

end Text

end TidyTex
