import TidyTex.Normalize
import TidyTex.Proofs.Answer.Selection
import TidyTex.Proofs.Brace.Escape
import TidyTex.Proofs.Symbol

/-! Folding symbols on the way, and folding them beforehand.

    Symbols are folded in two places: in the source in which the answer is looked for, and at the
    start of canonical notation. Which of them does the work depends on the balance of the source:

        balanced      the answer is cut out of a folded source, and there is nothing left to fold
        unbalanced    the text comes back as it was given, and canonical notation folds it

    Either way the result is that of a text whose symbols were folded before. -/

namespace TidyTex

open Text

/-- Options and text enter canonical notation by way of the folded text alone. -/
theorem canonicalize_congr {o p : Options} {s t : Text} (h : o.fold s = p.fold t) :
    canonicalize o s = canonicalize p t := by
  unfold canonicalize
  rw [h]

/-- Texts that are folded to the same and have the same source are normalized to the same, if the
    answer in that source is folded to the same too. -/
theorem normalizeWithReport_congr {o p : Options} {s t : Text} (hsource : o.source s = p.source t)
    (hisolate : o.isolateIn = p.isolateIn)
    (hanswer : o.fold (p.isolateIn (p.source t)).content =
      p.fold (p.isolateIn (p.source t)).content)
    (htext : o.fold s = p.fold t) : normalizeWithReport o s = normalizeWithReport p t := by
  unfold normalizeWithReport
  cases h : isBalanced (p.source t) with
  | true =>
    have h' : isBalanced (o.source s) = true := by rw [hsource, h]
    rw [isolate_of_isBalanced h, isolate_of_isBalanced h', hsource, hisolate, Report.andThen,
      Report.andThen, canonicalize_congr hanswer]
  | false =>
    have h' : isBalanced (o.source s) = false := by rw [hsource, h]
    rw [isolate_of_not_isBalanced h, isolate_of_not_isBalanced h', Report.andThen,
      Report.andThen, canonicalize_congr htext]

/-- An answer that was isolated in a folded text has nothing to fold. -/
theorem foldSymbols_isolateIn (o : Options) (s : Text) :
    foldSymbols (o.isolateIn (literalBracesToParens (foldSymbols s))).content =
      (o.isolateIn (literalBracesToParens (foldSymbols s))).content := by
  have hsource : ∀ c ∈ literalBracesToParens (foldSymbols s), sign? c = none :=
    forall_mem_literalBracesToParens (P := fun c => sign? c = none) rfl rfl
      sign?_of_mem_foldSymbols
  refine foldSymbols_eq_self_of_sign? ?_
  intro c hc
  exact hsource c ((o.isolateIn_sublist _).subset hc)

/-- Folding symbols on the way is folding them beforehand, for the text and for the warnings,
    whether the text is balanced or not. -/
theorem normalizeWithReport_foldSymbols (b : Bool) (s : Text) :
    normalizeWithReport { extractBoxed := b, stripNonAscii := false, foldSymbols := true } s =
      normalizeWithReport { extractBoxed := b, stripNonAscii := false, foldSymbols := false }
        (foldSymbols s) := by
  have hanswer := foldSymbols_isolateIn { extractBoxed := b } s
  exact normalizeWithReport_congr rfl rfl hanswer rfl

end TidyTex
