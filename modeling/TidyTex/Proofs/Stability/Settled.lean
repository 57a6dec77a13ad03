import TidyTex.Normalize
import TidyTex.Proofs.Canonical.Character
import TidyTex.Proofs.Stability.Isolation
import TidyTex.Proofs.Stability.Respelled

/-! Which texts normalizing leaves as they are.

    Under the default options normalizing takes away, then writes anew, then drops a period:

        isolate        literal braces, and what stands around an answer    balanced texts only
        cleanse        styles and marks
        respell        spellings, fractions, vectors, exponents
        period         a period at the end

    None of this raises the rank of a text. So in a text that comes back there was nothing to take
    away, or its rank would be lower, and respelling has given it back, which takes a text that is
    arranged. Canonical text has no `$` and none of the other characters that the tables take out,
    so what is left of the tables are the entries that look for more (`lastingEntries`).

    Canonical text comes back exactly if it is settled in this sense (`normalize_normalize_iff`),
    and it need not be. The letter of a `\bar{I}` is given another bar each time, and of the periods
    in `3..` one goes each time. -/

namespace TidyTex

open Text

/-- A text without commands of style and without marks. -/
def cleanse : Text → Text := deleteCosmetics ∘ removeStyling

theorem lowers_cleanse : Lowers rank cleanse := lowers_deleteCosmetics.comp lowers_removeStyling

theorem Options.fold_default (s : Text) : Options.default.fold s = s := rfl

theorem Options.source_default (s : Text) :
    Options.default.source s = literalBracesToParens s := rfl

theorem normalize_eq (s : Text) :
    normalize s = dropPeriod (respell (cleanse (isolate .default s).content)) := by
  rw [normalize, normalizeWith, normalizeWithReport, Report.content_andThen, canonicalize,
    Report.content_andThen, Options.fold_default, promotePass, cleanse, Function.comp_apply,
    respell]

theorem normalize_of_isBalanced {s : Text} (h : isBalanced (literalBracesToParens s) = true) :
    normalize s = dropPeriod (respell ((cleanse ∘ answerIn) (literalBracesToParens s))) := by
  rw [← Options.source_default] at h ⊢
  rw [normalize_eq, isolate_of_isBalanced h, Function.comp_apply, answerIn]

theorem normalize_of_not_isBalanced {s : Text}
    (h : isBalanced (literalBracesToParens s) = false) :
    normalize s = dropPeriod (respell (cleanse s)) := by
  rw [← Options.source_default] at h
  rw [normalize_eq, isolate_of_not_isBalanced h]

/-! ### What each stage leaves as it is -/

theorem cleanse_eq_self_iff {s : Text} : cleanse s = s ↔
    (∀ name ∈ deletedCommands ++ unwrappedCommands, ¬ name <:+: s) ∧
      ∀ p ∈ cosmeticDeletions, ¬ p.old <:+: s := by
  rw [cleanse, Function.comp_apply, lowers_deleteCosmetics.comp_eq_self_iff lowers_removeStyling,
    removeStyling_eq_self_iff, deleteCosmetics_eq_self_iff]

/-- Respelling changes the content of a text nowhere. -/
theorem mathContent_respell (s : Text) : mathContent (respell s) = mathContent s := by
  have h := keptByPasses_mathContent (mathContent s)
  exact h.promote (h.bareArgument (h.subscript (h.flatten (h.shorthand (h.unifySpellings rfl)))))

/-- Parentheses are content, and literal braces are not: a text with the same content had none. -/
theorem not_isInfix_of_mathContent_eq {s : Text}
    (h : mathContent (literalBracesToParens s) = mathContent s) :
    ∀ p ∈ literalBraces, ¬ p.old <:+: s := by
  have htable : ∀ p ∈ literalBraces,
      -((mathContent p.new).length : ℤ) < -((mathContent p.old).length : ℤ) := by decide
  refine Replacement.not_isInfix_of_size_le (fun s => -((mathContent s).length : ℤ)) ?_ htable ?_
  · intro s t
    rw [mathContent, List.filter_append, List.length_append, Int.natCast_add, Int.neg_add]
    rfl
  · exact (congrArg (fun t : Text => -(t.length : ℤ)) h).symm.le

/-! ### Entries of the tables -/

/-- The entries of the tables that canonical text could give something to do, other than those that
    put a bar on a letter: they look for more than a character that is taken out everywhere. -/
def lastingEntries : List Replacement :=
  (cosmeticDeletions ++ literalReplacements).filter fun p =>
    Avoids removedChars p.old && !p.barsLetter

theorem mem_lastingEntries_iff {p : Replacement} : p ∈ lastingEntries ↔
    p ∈ cosmeticDeletions ++ literalReplacements ∧ Avoids removedChars p.old ∧
      p.barsLetter = false := by
  rw [lastingEntries, List.mem_filter, Bool.and_eq_true, decide_eq_true_iff, Bool.not_eq_true']

/-- The tables find nothing but letters to bar exactly if neither the characters that they take out
    nor the old texts of these entries are there. -/
theorem not_isInfix_entries_iff {s : Text} :
    (∀ p ∈ cosmeticDeletions ++ literalReplacements, p.barsLetter = false → ¬ p.old <:+: s) ↔
      Avoids removedChars s ∧ ∀ p ∈ lastingEntries, ¬ p.old <:+: s := by
  have hentries : ∀ x ∈ removedChars.map fun c => [c], x ∈
      ((cosmeticDeletions ++ literalReplacements).filter fun p => !p.barsLetter).map (·.old) := by
    decide
  constructor
  · intro h
    refine ⟨fun c hmem hc => ?_, fun p hp => ?_⟩
    · obtain ⟨p, hp, hold⟩ := List.mem_map.1 (hentries [c] (List.mem_map_of_mem hc))
      obtain ⟨hp, hbar⟩ := List.mem_filter.1 hp
      obtain ⟨x, y, rfl⟩ := List.append_of_mem hmem
      exact h p hp (by simpa using hbar) ⟨x, y, by simp [hold]⟩
    · obtain ⟨hmem, -, hbar⟩ := mem_lastingEntries_iff.1 hp
      exact h p hmem hbar
  · rintro ⟨havoids, h⟩ p hp hbar hold
    exact h p (mem_lastingEntries_iff.2 ⟨hp, fun c hc => havoids c (hold.subset hc), hbar⟩) hold

/-! ### Settled texts -/

/-- A text in which normalizing finds nothing to take away, and whose letters, fractions, vectors
    and exponents are arranged. If it is balanced with parentheses for its literal braces, it has
    none of these and is an isolated answer. -/
structure Settled (s : Text) : Prop where
  not_literal : isBalanced (literalBracesToParens s) = true → ∀ p ∈ literalBraces, ¬ p.old <:+: s
  isolated : isBalanced (literalBracesToParens s) = true → Isolated s
  not_command : ∀ name ∈ deletedCommands ++ unwrappedCommands, ¬ name <:+: s
  not_entry : ∀ p ∈ lastingEntries, ¬ p.old <:+: s
  arranged : Arranged s
  not_period : s.getLast? ≠ some '.'

/-- What the stages behind the isolation leave as it is. -/
theorem cleanse_respell_eq_self_iff {s : Text} : cleanse s = s ∧ respell s = s ↔
    Avoids removedChars s ∧ (∀ name ∈ deletedCommands ++ unwrappedCommands, ¬ name <:+: s) ∧
      (∀ p ∈ lastingEntries, ¬ p.old <:+: s) ∧ Arranged s := by
  have hmarks : ∀ p ∈ cosmeticDeletions, p.barsLetter = false := by decide
  have hentries := not_isInfix_entries_iff (s := s)
  rw [List.forall_mem_append] at hentries
  rw [cleanse_eq_self_iff, respell_eq_self_iff]
  constructor
  · rintro ⟨⟨hcommand, hmark⟩, hold, harranged⟩
    obtain ⟨havoids, hentry⟩ := hentries.1 ⟨fun p hp _ => hmark p hp, hold⟩
    exact ⟨havoids, hcommand, hentry, harranged⟩
  · rintro ⟨havoids, hcommand, hentry, harranged⟩
    obtain ⟨hmark, hold⟩ := hentries.2 ⟨havoids, hentry⟩
    exact ⟨⟨hcommand, fun p hp => hmark p hp (hmarks p hp)⟩, hold, harranged⟩

/-- If taking away, respelling and dropping a period lead from a text to one that ranks no lower,
    then only respelling can have changed it. -/
theorem eq_self_of_rank_le {f : Text → Text} (hf : Lowers rank f) {s t : Text}
    (hrank : rank t ≤ rank s) (h : dropPeriod (respell (f t)) = s) :
    f t = t ∧ dropPeriod s = s ∧ respell t = s := by
  have hft : f t = t := by
    refine hf.eq_self_of_le ?_
    calc rank t ≤ rank s := hrank
      _ = rank (dropPeriod (respell (f t))) := by rw [h]
      _ ≤ rank (respell (f t)) := lowers_dropPeriod.le _
      _ ≤ rank (f t) := (relieves_respell _).rank_le
  rw [hft] at h
  have hperiod : dropPeriod (respell t) = respell t := by
    refine lowers_dropPeriod.eq_self_of_le ?_
    rw [h]
    exact (relieves_respell t).rank_le.trans hrank
  rw [hperiod] at h
  rw [h] at hperiod
  exact ⟨hft, hperiod, h⟩

/-- What comes back from normalizing is settled. -/
theorem settled_of_normalize_eq_self {s : Text} (h : normalize s = s) : Settled s := by
  cases hbalanced : isBalanced (literalBracesToParens s) with
  | true =>
    have hrank := (relieves_literalBracesToParens s).rank_le
    rw [normalize_of_isBalanced hbalanced] at h
    obtain ⟨hkept, hperiod, hrespell⟩ :=
      eq_self_of_rank_le (lowers_cleanse.comp lowers_answerIn) hrank h
    have hcontent : mathContent (literalBracesToParens s) = mathContent s := by
      rw [← mathContent_respell, hrespell]
    have hliteral := not_isInfix_of_mathContent_eq hcontent
    have hsource : literalBracesToParens s = s := Replacement.applyAll_eq_self hliteral
    rw [Function.comp_apply, lowers_cleanse.comp_eq_self_iff lowers_answerIn, hsource,
      answerIn_eq_self_iff] at hkept
    rw [hsource] at hrespell
    obtain ⟨hisolated, hcleanse⟩ := hkept
    obtain ⟨-, hcommand, hentry, harranged⟩ := cleanse_respell_eq_self_iff.1 ⟨hcleanse, hrespell⟩
    exact ⟨fun _ => hliteral, fun _ => hisolated, hcommand, hentry, harranged,
      dropPeriod_eq_self_iff.1 hperiod⟩
  | false =>
    rw [normalize_of_not_isBalanced hbalanced] at h
    obtain ⟨hcleanse, hperiod, hrespell⟩ := eq_self_of_rank_le lowers_cleanse (le_refl (rank s)) h
    obtain ⟨-, hcommand, hentry, harranged⟩ := cleanse_respell_eq_self_iff.1 ⟨hcleanse, hrespell⟩
    refine ⟨?_, ?_, hcommand, hentry, harranged, dropPeriod_eq_self_iff.1 hperiod⟩
    · rw [hbalanced]
      nofun
    · rw [hbalanced]
      nofun

/-- Normalizing leaves a settled text as it is, if it has none of the characters that are taken
    out. -/
theorem Settled.normalize_eq_self {s : Text} (h : Settled s) (havoids : Avoids removedChars s) :
    normalize s = s := by
  obtain ⟨hcleanse, hrespell⟩ :=
    cleanse_respell_eq_self_iff.2 ⟨havoids, h.not_command, h.not_entry, h.arranged⟩
  have hperiod := dropPeriod_eq_self_iff.2 h.not_period
  cases hbalanced : isBalanced (literalBracesToParens s) with
  | true =>
    have hsource : literalBracesToParens s = s :=
      Replacement.applyAll_eq_self (h.not_literal hbalanced)
    rw [normalize_of_isBalanced hbalanced, hsource, Function.comp_apply,
      answerIn_eq_self_iff.2 (h.isolated hbalanced), hcleanse, hrespell, hperiod]
  | false => rw [normalize_of_not_isBalanced hbalanced, hcleanse, hrespell, hperiod]

theorem avoids_normalize (s : Text) : Avoids removedChars (normalize s) := by
  rw [normalize, normalizeWith, normalizeWithReport, Report.content_andThen]
  exact avoids_canonicalize .default _

/-- Canonical text stays as it is when it is normalized again exactly if it is settled. -/
theorem normalize_normalize_iff (s : Text) :
    normalize (normalize s) = normalize s ↔ Settled (normalize s) :=
  ⟨settled_of_normalize_eq_self, fun h => h.normalize_eq_self (avoids_normalize s)⟩

/-- One respelling may take back another: the `I` of a vector is given a bar, and the vector drops
    it. -/
example : unifySpellings "\\vec{I}".toList ≠ "\\vec{I}".toList ∧
    normalize "\\vec{I}".toList = "\\vec{I}".toList := by
  decide +kernel

/-- One period is dropped each time. -/
example : normalize "3..".toList = "3.".toList ∧ normalize "3.".toList = "3".toList := by
  decide +kernel

/-- The letter of a `\bar` is given another one each time. -/
theorem normalize_normalize_ne :
    normalize "I".toList = "\\bar{I}".toList ∧
      normalize (normalize "I".toList) = "\\bar\x7b\\bar{I}\x7d".toList ∧
      normalize (normalize "I".toList) ≠ normalize "I".toList := by
  decide +kernel

end TidyTex
