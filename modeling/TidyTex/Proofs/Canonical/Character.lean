import TidyTex.Proofs.Canonical.Content
import TidyTex.Proofs.Canonical.Passes
import TidyTex.Proofs.Replacement

/-! The characters of a text in canonical notation.

    Canonical notation writes braces and the texts of its tables, and all other characters come from
    the text it was given. So characters of a kind that holds these two are characters of that kind
    in the end (`forall_mem_canonicalize`). Texts in ASCII are such a case, and folded texts are
    another.

    A character that is an entry of a table is taken out there. The tables write none of these
    characters themselves, and no pass behind them does, so canonical text has none
    (`not_mem_canonicalize`). -/

namespace TidyTex

open Text

variable {P : Char → Prop}

theorem forall_mem_braced {s : Text} (ho : P '{') (hc : P '}') (h : ∀ c ∈ s, P c) :
    ∀ c ∈ braced s, P c := by
  rw [braced, List.forall_mem_cons, List.forall_mem_append, List.forall_mem_singleton]
  exact ⟨ho, h, hc⟩

namespace Fraction

theorem Argument.forall_mem_braced_content {a : Argument} (ho : P '{') (hc : P '}')
    (h : ∀ c ∈ a.text, P c) : ∀ c ∈ braced a.content, P c := by
  rcases a.text_eq with hplain | hbraced
  · rw [← hplain]
    exact forall_mem_braced ho hc h
  · rw [← hbraced]
    exact h

theorem forall_mem_braceShorthand (ho : P '{') (hc : P '}') {s : Text} (h : ∀ c ∈ s, P c) :
    ∀ c ∈ braceShorthand s, P c := by
  refine Rule.forall_mem_pass ?_ h
  intro x y hw hx
  obtain ⟨a, b, -, -, rfl, rfl⟩ := writes_shorthandRule hw
  rw [List.forall_mem_append, List.forall_mem_append] at hx ⊢
  exact ⟨hx.1, a.forall_mem_braced_content ho hc hx.2.1, b.forall_mem_braced_content ho hc hx.2.2⟩

theorem forall_mem_promoteOnce? (ho : P '{') (hc : P '}') {s t : Text}
    (hst : promoteOnce? s = some t) (h : ∀ c ∈ s, P c) : ∀ c ∈ t, P c := by
  obtain ⟨a, b, c, rfl, rfl⟩ := promoteOnce?_cases hst
  rw [List.forall_mem_append, List.forall_mem_append] at h ⊢
  exact ⟨⟨h.1.1, forall_mem_braced ho hc h.1.2⟩, h.2⟩

end Fraction

namespace Vector

/-- Flattening the bars of vectors leaves a selection of the characters, in their order. -/
theorem flattenBars_sublist (s : Text) : (flattenBars s).Sublist s := by
  refine flattenBars_induction (P := fun t => t.Sublist s) ?_ (List.Sublist.refl s)
  intro a t _ hat
  refine List.Sublist.trans ?_ hat
  conv => rhs; rw [← groupBody_append 0 t]
  exact (List.Sublist.refl a).append
    ((removeCommand_sublist.append (List.Sublist.refl _)).cons_cons '{')

theorem forall_mem_moveSubscriptOut (ho : P '{') (hc : P '}') {s : Text} (h : ∀ c ∈ s, P c) :
    ∀ c ∈ moveSubscriptOut s, P c := by
  refine Rule.forall_mem_pass ?_ h
  intro x y hw hx
  obtain ⟨base, sub, -, -, rfl, rfl⟩ := writes_subscriptRule hw
  simp only [braced, List.forall_mem_append, List.forall_mem_cons] at hx ⊢
  obtain ⟨hvec, -, ⟨hbase, hmark, -, hsub, hnil⟩, -⟩ := hx
  exact ⟨hvec, ⟨ho, hbase, hc, hnil.2⟩, hmark, ho, hsub, hc, hnil.2⟩

theorem forall_mem_braceBareArgument (ho : P '{') (hc : P '}') {s : Text} (h : ∀ c ∈ s, P c) :
    ∀ c ∈ braceBareArgument s, P c := by
  refine Rule.forall_mem_pass ?_ h
  intro x y hw hx
  obtain ⟨blanks, argument, -, -, rfl, rfl⟩ := writes_bareArgumentRule hw
  rw [List.forall_mem_append, List.forall_mem_append] at hx
  rw [List.forall_mem_append]
  exact ⟨hx.1, forall_mem_braced ho hc hx.2.2⟩

end Vector

/-- Characters of a kind stay characters of that kind, if braces and what the tables write are. -/
theorem keptByPasses_forall_mem (ho : P '{') (hc : P '}')
    (htables : ∀ p ∈ cosmeticDeletions ++ literalReplacements, ∀ c ∈ p.new, P c) :
    KeptByPasses fun t => ∀ c ∈ t, P c where
  unwrap _ _ _ h c hmem := h c (removeCommand_sublist.subset hmem)
  replace p hp s h := Replacement.forall_mem_apply (htables p hp) h
  shorthand := Fraction.forall_mem_braceShorthand ho hc
  flatten h c hmem := h c ((Vector.flattenBars_sublist _).subset hmem)
  subscript := Vector.forall_mem_moveSubscriptOut ho hc
  bareArgument := Vector.forall_mem_braceBareArgument ho hc
  promotion := Fraction.forall_mem_promoteOnce? ho hc
  period {s} h := by
    unfold dropPeriod
    split
    · exact fun c hmem => h c (List.dropLast_subset s hmem)
    · exact h

/-- A text of characters of such a kind is made of them in canonical notation. -/
theorem forall_mem_canonicalize (ho : P '{') (hc : P '}')
    (htables : ∀ p ∈ cosmeticDeletions ++ literalReplacements, ∀ c ∈ p.new, P c) (o : Options)
    {s : Text} (h : ∀ c ∈ o.fold s, P c) : ∀ c ∈ (canonicalize o s).content, P c := by
  refine (keptByPasses_forall_mem ho hc htables).canonicalize o ?_
  exact fun c hmem => h c ((deleteEnvironments_sublist _).subset hmem)

/-- The tables write in ASCII. -/
theorem isAscii_of_mem_new :
    ∀ p ∈ cosmeticDeletions ++ literalReplacements, ∀ c ∈ p.new, isAscii c = true := by
  have hnew : (cosmeticDeletions ++ literalReplacements).all (·.new.all isAscii) = true := by decide
  exact fun p hp => List.all_eq_true.1 (List.all_eq_true.1 hnew p hp)

/-- A text in ASCII is in ASCII in canonical notation. -/
theorem isAscii_of_mem_canonicalize (o : Options) {s : Text} (h : ∀ c ∈ s, isAscii c = true) :
    ∀ c ∈ (canonicalize o s).content, isAscii c = true := by
  have hfold : o.fold s = s := by
    unfold Options.fold
    split
    · exact foldSymbols_eq_self h
    · rfl
  refine forall_mem_canonicalize (P := fun c => isAscii c = true) rfl rfl isAscii_of_mem_new o ?_
  rw [hfold]
  exact h

/-! ### Characters that are taken out -/

/-- The single characters that the tables delete or replace for good: math mode, commas, backticks,
    line ends, and the two signs that are written in plain. -/
def removedChars : List Char := ['$', ',', '\x60', '\n', '±', '∓']

/-- The tables write none of the characters that they take out. -/
theorem not_mem_new_of_mem_removedChars {c : Char} (hc : c ∈ removedChars) :
    ∀ p ∈ cosmeticDeletions ++ literalReplacements, c ∉ p.new := by
  have hnew : ∀ p ∈ cosmeticDeletions ++ literalReplacements,
      p.new.all (fun c => c ∉ removedChars) = true := by decide
  exact fun p hp hmem => of_decide_eq_true (List.all_eq_true.1 (hnew p hp) c hmem) hc

/-- None of them is left behind the tables. -/
theorem not_mem_unifySpellings_deleteCosmetics {c : Char} (hc : c ∈ removedChars) (s : Text) :
    c ∉ unifySpellings (deleteCosmetics s) := by
  have hentries : ∀ x ∈ removedChars.map fun c => [c],
      x ∈ (cosmeticDeletions ++ literalReplacements).map (·.old) := by decide
  have htables : unifySpellings (deleteCosmetics s) =
      Replacement.applyAll (cosmeticDeletions ++ literalReplacements) s :=
    (Replacement.applyAll_append _ _ s).symm
  obtain ⟨p, hp, hold⟩ := List.mem_map.1 (hentries [c] (List.mem_map_of_mem hc))
  rw [htables]
  exact Replacement.not_mem_applyAll hp hold (not_mem_new_of_mem_removedChars hc) s

/-- Canonical text has none of the characters that are taken out. -/
theorem avoids_canonicalize (o : Options) (s : Text) :
    Avoids removedChars (canonicalize o s).content := by
  intro c hmem hc
  have hbraces : '{' ∉ removedChars ∧ '}' ∉ removedChars := by decide
  have hkept := keptByPasses_forall_mem (P := fun d => d ≠ c)
    (ne_of_mem_of_not_mem hc hbraces.1).symm (ne_of_mem_of_not_mem hc hbraces.2).symm
    fun p hp d hd => ne_of_mem_of_not_mem hd (not_mem_new_of_mem_removedChars hc p hp)
  exact hkept.arranged
    (fun d hd => ne_of_mem_of_not_mem hd (not_mem_unifySpellings_deleteCosmetics hc _)) c hmem rfl

/-- Canonical text has none of the characters that are taken out, and none of the symbols that are
    folded when they are. -/
theorem not_mem_canonicalize (o : Options) (s : Text) :
    (∀ c ∈ removedChars, c ∉ (canonicalize o s).content) ∧
      (o.foldSymbols = true → ∀ q ∈ symbols, q.1 ∉ (canonicalize o s).content) := by
  constructor
  · exact fun c hc hmem => avoids_canonicalize o s c hmem hc
  · intro hfold q hq hmem
    have hsymbol : ∀ q ∈ symbols, sign? q.1 ≠ none := by decide
    have htables : ∀ p ∈ cosmeticDeletions ++ literalReplacements, ∀ c ∈ p.new, sign? c = none :=
      fun p hp c hc => sign?_of_isAscii (isAscii_of_mem_new p hp c hc)
    refine hsymbol q hq (forall_mem_canonicalize (P := fun c => sign? c = none) rfl rfl htables o ?_
      q.1 hmem)
    rw [Options.fold, if_pos hfold]
    exact sign?_of_mem_foldSymbols

/-- Of `$1±2,`, a line end and `×3` only the digits and the signs are left. -/
theorem not_mem_canonicalize_signs :
    (∀ c ∈ removedChars, c ∉ (canonicalize .unicodeAware "$1±2,\n×3".toList).content) ∧
      Options.unicodeAware.foldSymbols = true ∧
      ∀ q ∈ symbols, q.1 ∉ (canonicalize .unicodeAware "$1±2,\n×3".toList).content := by
  obtain ⟨hremoved, hfolded⟩ := not_mem_canonicalize .unicodeAware "$1±2,\n×3".toList
  exact ⟨hremoved, rfl, hfolded rfl⟩

end TidyTex
