import TidyTex.Spelling
import TidyTex.Proofs.Replacement

/-! The spellings are in an order in which one run through them is enough.

    Every entry changes the whole text, and what it writes can be looked for by another entry. Some
    of these pairs do meet, and then the entry that writes comes first:

        _e   ──▶ _{e}         \pm ──▶ +        {\mp} ──▶ {-}
        e_   ──▶ \bar{e}_     _+  ──▶ _p       {-}   ──▶ {m}

    In the other direction nothing is fed: no entry writes a text that makes up the old text of an
    earlier one, or its own, together with anything that stands beside it. Three entries are left
    out of that. The one for `I` writes an `I`, and those for `±` and `∓` come after the entries
    that look for a sign behind `_` or in braces. A text without these characters does not get them,
    so for such a text the spellings are settled after one run (`unifySpellings_closed`). -/

namespace TidyTex

namespace Text

open Replacement

/-- The characters that their entries write again or replace too late. -/
def unsettledChars : Text := ['I', '±', '∓']

/-- The entries that have nothing to do with those characters. -/
def settlingReplacements : List Replacement :=
  literalReplacements.filter fun p => Avoids unsettledChars p.old

/-- No such entry writes a text that its own old text can share characters with. -/
theorem clear_of_mem_settlingReplacements :
    ∀ p ∈ settlingReplacements, Clear p.old p.new := by
  decide +kernel

/-- No such entry brings the old text of an earlier one back. -/
theorem pairwise_spares_settlingReplacements :
    settlingReplacements.Pairwise fun p q => Spares p.old q.old q.new := by
  decide +kernel

/-- In a text without those characters the other entries never find anything. -/
theorem applyAll_settlingReplacements {s : Text} (hs : Avoids unsettledChars s) :
    applyAll settlingReplacements s = unifySpellings s ∧
      Avoids unsettledChars (unifySpellings s) := by
  refine applyAll_filter_avoids ?_ hs
  decide +kernel

/-- After one run through the spellings, no entry has anything left to replace, so that another run
    changes nothing. The text may hold anything but `I`, `±` and `∓`. -/
theorem unifySpellings_closed {s : Text} (hunit : 'I' ∉ s) (hplus : '±' ∉ s) (hminus : '∓' ∉ s) :
    (∀ p ∈ literalReplacements, ¬ p.old <:+: unifySpellings s) ∧
      unifySpellings (unifySpellings s) = unifySpellings s := by
  have hs : Avoids unsettledChars s := by
    intro c hc hmem
    simp only [unsettledChars, List.mem_cons, List.not_mem_nil, or_false] at hmem
    rcases hmem with rfl | rfl | rfl
    · exact hunit hc
    · exact hplus hc
    · exact hminus hc
  obtain ⟨hfilter, habsent⟩ := applyAll_settlingReplacements hs
  have hnone : ∀ p ∈ literalReplacements, ¬ p.old <:+: unifySpellings s := by
    intro p hp hfound
    have hold : Avoids unsettledChars p.old := fun c hc => habsent c (hfound.subset hc)
    have hmem : p ∈ settlingReplacements := List.mem_filter.2 ⟨hp, decide_eq_true hold⟩
    rw [← hfilter] at hfound
    exact not_isInfix_applyAll clear_of_mem_settlingReplacements
      pairwise_spares_settlingReplacements s p hmem hfound
  exact ⟨hnone, applyAll_eq_self hnone⟩

/-- Here three commands for signs become signs that a later entry takes up, and one `e` stands
    between two marks. -/
theorem unifySpellings_closed_feeding :
    'I' ∉ "q_e_\\pm\x7b\\mp\x7dE_\\mpe_+".toList ∧ '±' ∉ "q_e_\\pm\x7b\\mp\x7dE_\\mpe_+".toList ∧
      '∓' ∉ "q_e_\\pm\x7b\\mp\x7dE_\\mpe_+".toList ∧
      unifySpellings "q_e_\\pm\x7b\\mp\x7dE_\\mpe_+".toList =
        "q_\x7be\x7d_p\x7bm\x7d\\bar\x7bE\x7d_m\\bar\x7be\x7d_p".toList ∧
      (∀ p ∈ literalReplacements,
        ¬ p.old <:+: unifySpellings "q_e_\\pm\x7b\\mp\x7dE_\\mpe_+".toList) ∧
      unifySpellings (unifySpellings "q_e_\\pm\x7b\\mp\x7dE_\\mpe_+".toList) =
        unifySpellings "q_e_\\pm\x7b\\mp\x7dE_\\mpe_+".toList :=
  ⟨by decide +kernel, by decide +kernel, by decide +kernel, by decide +kernel,
    unifySpellings_closed (by decide +kernel) (by decide +kernel) (by decide +kernel)⟩

/-- A sign behind a `_` that is not written as a command takes two runs. -/
example : unifySpellings "q_±".toList = "q_+".toList ∧
    unifySpellings "q_+".toList = "q_p".toList := by
  decide +kernel

end Text

end TidyTex
