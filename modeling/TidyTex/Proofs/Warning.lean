import TidyTex.Normalize
import TidyTex.Proofs.Answer.Selection

/-! Which warnings a text can raise, and what is made of them.

    Every place that warns has its own warning, and the places are passed in a fixed order:

        source not balanced     unbalanced ── exponent fractions
        source balanced         leading braces ── trailing braces ── exponent fractions

    So a report is unbalanced exactly when its source is, and the warnings of a pass that was cut
    short come at most once and in the order of the passes. Strict mode refuses exactly the texts
    with an unbalanced report, whatever else the report warns of (`strict_agrees_with_report`). -/

namespace TidyTex

open Text

/-- The warnings of passes that were cut short, in the order of the passes. -/
def limitWarnings : List Warning :=
  [.limitReached .leadingBraces, .limitReached .trailingBraces, .limitReached .exponentFractions]

/-- A place that may warn gives its warning once or not at all. -/
theorem ite_warning_sublist (c : Prop) [Decidable c] (w : Warning) :
    (if c then [w] else []).Sublist [w] := by
  split
  · exact List.Sublist.refl _
  · exact List.nil_sublist _

theorem warnings_stripPass_sublist (pass : Pass) (s : Text) :
    (stripPass pass s).warnings.Sublist [.limitReached pass] :=
  ite_warning_sublist _ _

theorem warnings_promotePass_sublist (s : Text) :
    (promotePass s).warnings.Sublist [.limitReached .exponentFractions] :=
  ite_warning_sublist _ _

theorem warnings_isolateIn_sublist (o : Options) (source : Text) :
    (o.isolateIn source).warnings.Sublist
      [.limitReached .leadingBraces, .limitReached .trailingBraces] :=
  (warnings_stripPass_sublist .leadingBraces _).append
    (warnings_stripPass_sublist .trailingBraces _)

theorem warnings_canonicalize_sublist (o : Options) (s : Text) :
    (canonicalize o s).warnings.Sublist [.limitReached .exponentFractions] := by
  unfold canonicalize
  rw [Report.warnings_andThen, List.append_nil]
  exact warnings_promotePass_sublist _

theorem unbalanced_not_mem_warnings_canonicalize (o : Options) (s : Text) :
    .unbalanced ∉ (canonicalize o s).warnings := by
  intro hmem
  have hlimit := (warnings_canonicalize_sublist o s).subset hmem
  cases List.mem_singleton.1 hlimit

/-- A text whose source is not balanced is brought to canonical notation as it was given, and its
    warnings are those of that, behind the one for the balance. -/
theorem normalizeWithReport_of_not_isBalanced {o : Options} {s : Text}
    (h : isBalanced (o.source s) = false) :
    normalizeWithReport o s =
      ⟨(canonicalize o s).content, .unbalanced :: (canonicalize o s).warnings⟩ := by
  rw [normalizeWithReport, isolate_of_not_isBalanced h]
  rfl

theorem warnings_normalizeWithReport_sublist {o : Options} {s : Text}
    (h : isBalanced (o.source s) = true) :
    (normalizeWithReport o s).warnings.Sublist limitWarnings := by
  rw [normalizeWithReport, isolate_of_isBalanced h]
  exact (warnings_isolateIn_sublist o _).append (warnings_canonicalize_sublist o _)

/-- A report is unbalanced exactly when the source of the text is. -/
theorem unbalanced_mem_warnings_iff {o : Options} {s : Text} :
    .unbalanced ∈ (normalizeWithReport o s).warnings ↔ isBalanced (o.source s) = false := by
  cases h : isBalanced (o.source s) with
  | true =>
    refine iff_of_false (fun hmem => ?_) nofun
    have hlimit := (warnings_normalizeWithReport_sublist h).subset hmem
    exact absurd hlimit (by decide)
  | false =>
    rw [normalizeWithReport_of_not_isBalanced h]
    exact iff_of_true (List.mem_cons_self ..) rfl

theorem tryNormalize_eq_error_iff {s : Text} :
    tryNormalize s = .error (.unbalanced s) ↔
      (normalizeWithReport .default s).isUnbalanced = true := by
  unfold tryNormalize
  dsimp only
  split
  · next h => exact iff_of_true rfl h
  · next h => exact iff_of_false nofun h

theorem tryNormalize_eq_ok_iff {s : Text} :
    tryNormalize s = .ok (normalize s) ↔
      (normalizeWithReport .default s).isUnbalanced = false := by
  unfold tryNormalize
  dsimp only
  split
  · next h => exact iff_of_false nofun (by simp [h])
  · next h => exact iff_of_true rfl (by simpa using h)

/-- The strict and the lenient way agree. A report is unbalanced when its source is, which it says
    first and once, and then its content is the given text in canonical notation; otherwise it warns
    only of passes that were cut short. Strict mode refuses the text in the first case, and in the
    other case returns what the lenient way returns. -/
theorem strict_agrees_with_report (o : Options) (s : Text) :
    (.unbalanced ∈ (normalizeWithReport o s).warnings ↔ isBalanced (o.source s) = false) ∧
      (isBalanced (o.source s) = false ∧
          (normalizeWithReport o s).warnings.head? = some .unbalanced ∧
          (normalizeWithReport o s).warnings.count .unbalanced = 1 ∧
          (normalizeWithReport o s).content = (canonicalize o s).content ∨
        isBalanced (o.source s) = true ∧
          (normalizeWithReport o s).warnings.Sublist limitWarnings) ∧
      (tryNormalize s = .error (.unbalanced s) ↔
        (normalizeWithReport .default s).isUnbalanced = true) ∧
      (tryNormalize s = .ok (normalize s) ↔
        (normalizeWithReport .default s).isUnbalanced = false) := by
  refine ⟨unbalanced_mem_warnings_iff, ?_, tryNormalize_eq_error_iff, tryNormalize_eq_ok_iff⟩
  cases h : isBalanced (o.source s) with
  | true => exact Or.inr ⟨rfl, warnings_normalizeWithReport_sublist h⟩
  | false =>
    have hcount := List.count_eq_zero.2 (unbalanced_not_mem_warnings_canonicalize o s)
    rw [normalizeWithReport_of_not_isBalanced h]
    exact Or.inl ⟨rfl, rfl, by rw [List.count_cons_self, hcount], rfl⟩

end TidyTex
