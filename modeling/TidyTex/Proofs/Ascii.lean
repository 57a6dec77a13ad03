import TidyTex.Proofs.Canonical.Character
import TidyTex.Proofs.Normalize
import TidyTex.Proofs.Warning

/-! Reading the ASCII part of a text only.

    A source that has lost its characters beyond ASCII is in ASCII, and so is all that is made of
    it. Symbols lie beyond ASCII, so folding has nothing to do, neither in the source nor in the
    answer:

        balanced      the answer is in ASCII, with folding and without
        unbalanced    the text comes back as it was given, with all its characters

    The second line is why the first holds of balanced texts only
    (`normalizeWithReport_stripNonAscii`). -/

namespace TidyTex

open Text

theorem isAscii_of_mem_stripNonAscii {s : Text} : ∀ c ∈ stripNonAscii s, isAscii c = true :=
  fun _ hc => (List.mem_filter.1 hc).2

namespace Options

variable {o : Options}

/-- In a text in ASCII there is nothing to fold. -/
theorem fold_eq_self {s : Text} (h : ∀ c ∈ s, isAscii c = true) : o.fold s = s := by
  unfold fold
  split
  · exact foldSymbols_eq_self h
  · rfl

/-- The source of a text that is read in ASCII does not hang on folding. -/
theorem source_of_stripNonAscii (ho : o.stripNonAscii = true) (s : Text) :
    o.source s = literalBracesToParens (Text.stripNonAscii s) := by
  have hstrip : o.strip s = Text.stripNonAscii s := if_pos ho
  rw [source, hstrip, fold_eq_self isAscii_of_mem_stripNonAscii]

theorem isAscii_of_mem_source (ho : o.stripNonAscii = true) (s : Text) :
    ∀ c ∈ o.source s, isAscii c = true := by
  rw [source_of_stripNonAscii ho]
  exact forall_mem_literalBracesToParens (P := fun c => isAscii c = true) rfl rfl
    isAscii_of_mem_stripNonAscii

theorem isAscii_of_mem_isolateIn (ho : o.stripNonAscii = true) (s : Text) :
    ∀ c ∈ (o.isolateIn (o.source s)).content, isAscii c = true :=
  fun c hc => isAscii_of_mem_source ho s c ((o.isolateIn_sublist _).subset hc)

end Options

theorem normalizeWithReport_of_isBalanced {o : Options} {s : Text}
    (h : isBalanced (o.source s) = true) :
    normalizeWithReport o s = (o.isolateIn (o.source s)).andThen (canonicalize o) := by
  rw [normalizeWithReport, isolate_of_isBalanced h]

/-- The report on a balanced text that is read in ASCII is the same with folding and without. -/
theorem normalizeWithReport_fold_congr {o p : Options} (ho : o.stripNonAscii = true)
    (hp : p.stripNonAscii = true) (hboxed : o.extractBoxed = p.extractBoxed) {s : Text}
    (h : isBalanced (o.source s) = true) : normalizeWithReport o s = normalizeWithReport p s := by
  have hsource : o.source s = p.source s := by
    rw [Options.source_of_stripNonAscii ho, Options.source_of_stripNonAscii hp]
  have hisolate : o.isolateIn = p.isolateIn := by
    funext t
    simp only [Options.isolateIn, Options.unbox, hboxed]
  have hanswer : o.fold (p.isolateIn (p.source s)).content =
      p.fold (p.isolateIn (p.source s)).content := by
    rw [Options.fold_eq_self (Options.isAscii_of_mem_isolateIn hp s),
      Options.fold_eq_self (Options.isAscii_of_mem_isolateIn hp s)]
  have h' : isBalanced (p.source s) = true := by rw [← hsource, h]
  rw [normalizeWithReport_of_isBalanced h, normalizeWithReport_of_isBalanced h', hsource, hisolate,
    Report.andThen, Report.andThen, canonicalize_congr hanswer]

/-- When characters beyond ASCII are dropped and the report is not unbalanced, its content is in
    ASCII, and content and warnings are the same with symbols folded and not folded. -/
theorem normalizeWithReport_stripNonAscii {o : Options} (ho : o.stripNonAscii = true) {s : Text}
    (h : .unbalanced ∉ (normalizeWithReport o s).warnings) :
    (∀ c ∈ (normalizeWithReport o s).content, isAscii c = true) ∧
      normalizeWithReport { o with foldSymbols := true } s =
        normalizeWithReport { o with foldSymbols := false } s := by
  rw [unbalanced_mem_warnings_iff, Bool.not_eq_false] at h
  have hfold : ∀ b, normalizeWithReport o s = normalizeWithReport { o with foldSymbols := b } s :=
    fun b => normalizeWithReport_fold_congr (p := { o with foldSymbols := b }) ho ho rfl h
  constructor
  · rw [normalizeWithReport_of_isBalanced h, Report.content_andThen]
    exact isAscii_of_mem_canonicalize o (Options.isAscii_of_mem_isolateIn ho s)
  · exact (hfold true).symm.trans (hfold false)

/-- In `v≥\boxed{3×I\,м/с}` a relation, an operator and the letters of a unit lie beyond ASCII. -/
theorem normalizeWithReport_stripNonAscii_unit :
    .unbalanced ∉ (normalizeWithReport .asciiOnly "v≥\\boxed\x7b3×I\\,м/с\x7d".toList).warnings ∧
      ∀ c ∈ (normalizeWithReport .asciiOnly "v≥\\boxed\x7b3×I\\,м/с\x7d".toList).content,
        isAscii c = true := by
  have h : .unbalanced ∉
      (normalizeWithReport .asciiOnly "v≥\\boxed\x7b3×I\\,м/с\x7d".toList).warnings := by
    rw [unbalanced_mem_warnings_iff, Bool.not_eq_false]
    decide +kernel
  exact ⟨h, (normalizeWithReport_stripNonAscii rfl h).1⟩

end TidyTex
