import TidyTex.Proofs.Canonical.Passes
import TidyTex.Proofs.Fraction.Exponent
import TidyTex.Proofs.Fraction.Shorthand
import TidyTex.Proofs.Symbol
import TidyTex.Proofs.Vector

/-! What a text says in mathematics, and what canonical notation makes of it.

    Digits, parentheses, scripts, operators and relations are the content of a text. Only the
    deletion of environments can lose any of it, and it never adds or moves any; all other passes
    leave the content as it is, character by character. -/

namespace TidyTex

open Text

namespace Text

/-- The characters that carry mathematical content. -/
def contentChars : List Char :=
  ['0', '1', '2', '3', '4', '5', '6', '7', '8', '9', '(', ')', '^', '_', '/', '*', '=', '<', '>']

/-- Whether a character carries mathematical content. -/
def isContent (c : Char) : Bool := contentChars.contains c

/-- The content of a text: its content characters, in their order. -/
def mathContent (s : Text) : Text := s.filter isContent

theorem isContent_eq_false_of_isBlank (c : Char) (h : isBlank c = true) : isContent c = false := by
  have hblank : contentChars.all (fun d => !isBlank d) = true := by decide
  rw [Bool.eq_false_iff]
  intro hc
  have hcblank := List.all_eq_true.1 hblank c (List.contains_iff_mem.1 hc)
  rw [h] at hcblank
  cases hcblank

end Text

theorem deleteEnvironments_sublist (s : Text) : (deleteEnvironments s).Sublist s := by
  refine List.foldlRecOn (motive := fun t : Text => t.Sublist s) deletedCommands _
    (List.Sublist.refl s) ?_
  intro t ht name _
  exact removeCommand_sublist.trans ht

theorem deleteEnvironments_eq_self {s : Text} (h : ∀ name ∈ deletedCommands, ¬ name <:+: s) :
    deleteEnvironments s = s := by
  refine List.foldlRecOn (motive := fun t : Text => t = s) deletedCommands _ rfl ?_
  intro t ht name hname
  rw [ht]
  exact removeCommand_eq_self (h name hname)

theorem Options.mathContent_fold (o : Options) (s : Text) :
    mathContent (o.fold s) = mathContent s := by
  unfold fold
  split
  · exact filter_foldSymbols (by decide) rfl s
  · rfl

/-- Folding symbols brings up no environment. -/
theorem Options.isInfix_of_isInfix_fold {o : Options} {name s : Text}
    (hname : name ∈ deletedCommands) (h : name <:+: o.fold s) : name <:+: s := by
  unfold fold at h
  split at h
  · simp only [deletedCommands, List.mem_cons, List.not_mem_nil, or_false] at hname
    rcases hname with rfl | rfl
    · exact isInfix_of_isInfix_foldSymbols (by decide) (by decide) (by decide) h
    · exact isInfix_of_isInfix_foldSymbols (by decide) (by decide) (by decide) h
  · exact h

theorem keptByPasses_mathContent (c : Text) : KeptByPasses fun t => mathContent t = c where
  unwrap name hname s hs := by
    have hnames : ∀ name ∈ unwrappedCommands, name.filter isContent = [] := by decide
    rw [← hs]
    exact filter_removeCommand_unwrap rfl rfl (hnames name hname)
  replace p hp s hs := by
    have htable : ∀ p ∈ cosmeticDeletions ++ literalReplacements,
        p.new.filter isContent = p.old.filter isContent := by decide +kernel
    rw [← hs]
    exact Replacement.filter_apply (htable p hp) s
  shorthand {s} hs := by
    rw [← hs]
    exact Fraction.filter_braceShorthand rfl rfl s
  flatten {s} hs := by
    rw [← hs]
    exact Vector.filter_flattenBars rfl rfl rfl s
  subscript {s} hs := by
    rw [← hs]
    exact Vector.filter_moveSubscriptOut rfl rfl s
  bareArgument {s} hs := by
    rw [← hs]
    exact Vector.filter_braceBareArgument rfl rfl isContent_eq_false_of_isBlank s
  promotion h hs := by
    rw [← hs]
    exact Fraction.filter_promoteOnce? rfl rfl h
  period {s} hs := by
    rw [← hs]
    exact filter_dropPeriod rfl s

/-- Canonical notation has the content that the deletion of environments leaves. -/
theorem mathContent_canonicalize_eq (o : Options) (s : Text) :
    mathContent (canonicalize o s).content = mathContent (deleteEnvironments (o.fold s)) :=
  (keptByPasses_mathContent _).canonicalize o rfl

/-- Canonical notation adds no content and moves none, and without environments in the text it
    loses none. -/
theorem mathContent_canonicalize (o : Options) (s : Text) :
    (mathContent (canonicalize o s).content).Sublist (mathContent s) ∧
      (¬ command "begin" <:+: s → ¬ command "end" <:+: s →
        mathContent (canonicalize o s).content = mathContent s) := by
  rw [mathContent_canonicalize_eq, ← o.mathContent_fold s]
  constructor
  · exact (deleteEnvironments_sublist _).filter isContent
  · intro hbegin hend
    rw [deleteEnvironments_eq_self]
    intro name hname h
    have hs := Options.isInfix_of_isInfix_fold hname h
    simp only [deletedCommands, List.mem_cons, List.not_mem_nil, or_false] at hname
    rcases hname with rfl | rfl
    · exact hbegin hs
    · exact hend hs

/-- Styles and symbols come in the middle of the content, and none of it is lost. -/
theorem mathContent_canonicalize_styles :
    ¬ command "begin" <:+: "\\hat{F}_e≤2×x^\\frac12".toList ∧
      ¬ command "end" <:+: "\\hat{F}_e≤2×x^\\frac12".toList ∧
      mathContent (canonicalize .unicodeAware "\\hat{F}_e≤2×x^\\frac12".toList).content =
        mathContent "\\hat{F}_e≤2×x^\\frac12".toList := by
  have hbegin : ¬ command "begin" <:+: "\\hat{F}_e≤2×x^\\frac12".toList :=
    cutFirst?_eq_none_iff.1 (by decide)
  have hend : ¬ command "end" <:+: "\\hat{F}_e≤2×x^\\frac12".toList :=
    cutFirst?_eq_none_iff.1 (by decide)
  exact ⟨hbegin, hend, (mathContent_canonicalize .unicodeAware _).2 hbegin hend⟩

end TidyTex
