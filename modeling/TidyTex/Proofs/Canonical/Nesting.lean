import TidyTex.Proofs.Canonical.Passes
import TidyTex.Proofs.Fraction.Exponent
import TidyTex.Proofs.Fraction.Shorthand
import TidyTex.Proofs.Symbol
import TidyTex.Proofs.Vector

/-! Braces in canonical notation.

    Every pass keeps balanced braces balanced, each for a reason of its own:

        removed commands      take a whole group along, or both of its braces
        tables                exchange texts that nest
        fractions, vectors    exchange texts that nest
        bars in vectors       removed from the content of a group
        exponents             one pair put around a part of the text, wherever it ends -/

namespace TidyTex

open Text

theorem Options.nests_fold_iff (o : Options) {s : Text} :
    Nests isBrace (o.fold s) ↔ Nests isBrace s := by
  unfold fold
  split
  · exact nests_iff_of_filter_eq (filter_foldSymbols (by decide) rfl s)
  · exact Iff.rfl

theorem nests_dropPeriod_iff {s : Text} : Nests isBrace (dropPeriod s) ↔ Nests isBrace s :=
  nests_iff_of_filter_eq (filter_dropPeriod rfl s)

theorem nests_deleteEnvironments {s : Text} (h : Nests isBrace s) :
    Nests isBrace (deleteEnvironments s) := by
  have hnames : ∀ name ∈ deletedCommands, Nests isBrace name := by decide
  refine List.foldlRecOn deletedCommands _ h ?_
  intro t ht name hname
  exact nests_removeCommand seesBraces_isBrace (hnames name hname) ht

theorem keptByPasses_nests : KeptByPasses (Nests isBrace) where
  unwrap name hname s hs := by
    have hnames : ∀ name ∈ unwrappedCommands, Nests isBrace name := by decide
    exact nests_removeCommand seesBraces_isBrace (hnames name hname) hs
  replace p hp s hs := by
    have htable : ∀ p ∈ cosmeticDeletions ++ literalReplacements,
        Nests isBrace p.old ∧ Nests isBrace p.new := by decide
    exact (Replacement.nests_apply_iff (htable p hp).1 (htable p hp).2).2 hs
  shorthand := Fraction.nests_braceShorthand_iff.2
  flatten := Vector.nests_flattenBars
  subscript := (Vector.nests_moveSubscriptOut_iff seesBraces_isBrace).2
  bareArgument := Vector.nests_braceBareArgument_iff.2
  promotion := Fraction.nests_promoteOnce?
  period := nests_dropPeriod_iff.2

/-- A text with balanced braces has balanced braces in canonical notation. -/
theorem braceBalanced_canonicalize (o : Options) {s : Text} (h : BraceBalanced s) :
    BraceBalanced (canonicalize o s).content := by
  rw [braceBalanced_iff_nests] at h ⊢
  exact keptByPasses_nests.canonicalize o (nests_deleteEnvironments (o.nests_fold_iff.2 h))

/-- In `\hat{x^\frac}{{a}{b}}` the fraction begins in one group and ends in the next, and its new
    braces cross both. -/
theorem braceBalanced_canonicalize_crossing :
    BraceBalanced "\\hat\x7bx^\\frac\x7d\x7b{a}{b}\x7d".toList ∧
      BraceBalanced
        (canonicalize .unicodeAware "\\hat\x7bx^\\frac\x7d\x7b{a}{b}\x7d".toList).content :=
  ⟨by decide, braceBalanced_canonicalize .unicodeAware (by decide)⟩

end TidyTex
