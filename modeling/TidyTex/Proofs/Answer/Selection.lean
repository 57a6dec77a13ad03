import Mathlib.Data.List.Infix
import TidyTex.Answer
import TidyTex.Proofs.Command
import TidyTex.Proofs.Rule
import TidyTex.Proofs.Symbol

/-! What isolating an answer selects.

    Stripping braces and cutting at a relation pick a contiguous part of the text, and unboxing
    drops characters from anywhere in it:

        source  ──unbox──▶  selection of characters  ──strip, cut, strip──▶  contiguous part

    So the answer is made of characters of the source, in their order (`isolateIn_sublist`). The
    marks at which the text is cut are not in it, since they are looked for until none is left, and
    its digits stand side by side in the text, since only unboxing takes anything out of the middle
    and it takes no digits (`isolate_selects`). -/

namespace TidyTex

open Text

/-- Strips find what they return inside the text. -/
theorem Text.stripOuters_isInfix (limit : Nat) (s : Text) : (stripOuters limit s).1 <:+: s := by
  refine repeatAtMost_induction (P := fun t => t <:+: s) ?_ limit List.infix_rfl
  intro t u htu ht
  obtain ⟨a, b, rfl⟩ := append_of_stripOuter? htu
  refine List.IsInfix.trans ⟨a ++ ['{'], '}' :: b, ?_⟩ ht
  simp

theorem stripPass_isInfix (pass : Pass) (s : Text) : (stripPass pass s).content <:+: s :=
  stripOuters_isInfix pass.limit s

namespace Options

theorem unbox_sublist (o : Options) (s : Text) : (o.unbox s).Sublist s := by
  unfold unbox
  split
  · exact removeCommand_sublist
  · exact List.Sublist.refl s

/-- An answer is a contiguous part of the unboxed source. -/
theorem isolateIn_isInfix (o : Options) (source : Text) :
    (o.isolateIn source).content <:+: o.unbox source := by
  have hleading := stripPass_isInfix .leadingBraces (o.unbox source)
  have hquad := (beforeQuad_isPrefix (stripPass .leadingBraces (o.unbox source)).content).isInfix
  exact (stripPass_isInfix .trailingBraces _).trans
    ((rightHandSide_isInfix _).trans (hquad.trans hleading))

/-- An answer is a selection of the characters of the source, in their order. -/
theorem isolateIn_sublist (o : Options) (source : Text) :
    (o.isolateIn source).content.Sublist source :=
  (o.isolateIn_isInfix source).sublist.trans (o.unbox_sublist source)

end Options

/-! ### What is cut away -/

/-- A sign that is one character does not occur behind its last occurrence. -/
theorem Sign.not_mem_of_afterLast? {c : Char} {s t : Text}
    (h : (symbol c).afterLast? s = some t) : c ∉ t := by
  rw [← List.singleton_infix_iff]
  exact Sign.not_isInfix_of_afterLast? h

theorem Sign.not_mem_of_afterLast?_eq_none {c : Char} {s : Text}
    (h : (symbol c).afterLast? s = none) : c ∉ s := by
  rw [← List.singleton_infix_iff]
  exact Sign.afterLast?_eq_none_iff.1 h

/-- The sign of equality decides before all others, so none is left on the right-hand side. -/
theorem not_mem_rightHandSide (s : Text) : '=' ∉ rightHandSide s := by
  intro hmem
  have hcut := (trim_isInfix _).subset hmem
  rw [relationSigns, List.findSome?_cons] at hcut
  cases h : (Sign.symbol '=').afterLast? s with
  | some t =>
    rw [h] at hcut
    exact Sign.not_mem_of_afterLast? h hcut
  | none =>
    exact Sign.not_mem_of_afterLast?_eq_none h ((rightHandSide_isInfix s).subset hmem)

theorem not_isInfix_beforeQuad (s : Text) : ¬ command "quad" <:+: beforeQuad s := by
  unfold beforeQuad
  cases h : cutFirst? (command "quad") s with
  | none => exact cutFirst?_eq_none_iff.1 h
  | some k => exact not_isInfix_before_cutFirst? (List.cons_ne_nil _ _) h

namespace Options

variable (o : Options)

/-- What comes after the cuts only strips braces. -/
theorem isolateIn_isInfix_rightHandSide (source : Text) :
    (o.isolateIn source).content <:+:
      rightHandSide (beforeQuad (stripPass .leadingBraces (o.unbox source)).content) :=
  stripPass_isInfix .trailingBraces _

theorem not_mem_isolateIn (source : Text) : '=' ∉ (o.isolateIn source).content := by
  intro hmem
  exact not_mem_rightHandSide _ ((o.isolateIn_isInfix_rightHandSide source).subset hmem)

theorem not_isInfix_quad_isolateIn (source : Text) :
    ¬ command "quad" <:+: (o.isolateIn source).content := by
  intro hquad
  have hside := hquad.trans (o.isolateIn_isInfix_rightHandSide source)
  exact not_isInfix_beforeQuad _ (hside.trans (rightHandSide_isInfix _))

theorem not_isInfix_boxed_isolateIn {o : Options} (h : o.extractBoxed = true) (source : Text) :
    ¬ command "boxed" <:+: (o.isolateIn source).content := by
  intro hboxed
  have hunbox := hboxed.trans (o.isolateIn_isInfix source)
  rw [unbox, if_pos h] at hunbox
  exact not_isInfix_removeCommand (List.cons_ne_nil _ _) hunbox

/-! ### Digits -/

/-- Every digit counted here is in ASCII. -/
theorem isAscii_of_isDigit {c : Char} (h : c.isDigit = true) : isAscii c = true := by
  simp only [Char.isDigit, Bool.and_eq_true, decide_eq_true_eq] at h
  have hle : c.toNat ≤ 57 := h.2
  simp only [isAscii, decide_eq_true_eq]
  omega

theorem filter_isDigit_strip (s : Text) :
    (o.strip s).filter Char.isDigit = s.filter Char.isDigit := by
  unfold strip
  split
  · rw [Text.stripNonAscii, List.filter_filter]
    refine List.filter_congr fun c _ => ?_
    cases hc : c.isDigit with
    | false => rfl
    | true => rw [isAscii_of_isDigit hc, Bool.and_self]
  · rfl

theorem filter_isDigit_fold (s : Text) :
    (o.fold s).filter Char.isDigit = s.filter Char.isDigit := by
  unfold fold
  split
  · exact filter_foldSymbols (by decide) rfl s
  · rfl

/-- The source of an answer has the digits of the text. -/
theorem filter_isDigit_source (s : Text) :
    (o.source s).filter Char.isDigit = s.filter Char.isDigit := by
  have htable : ∀ p ∈ literalBraces,
      p.new.filter Char.isDigit = p.old.filter Char.isDigit := by decide
  refine Replacement.applyAll_induction
    (P := fun t => t.filter Char.isDigit = s.filter Char.isDigit) ?_ ?_
  · intro p hp t ht
    rw [← ht]
    exact Replacement.filter_apply (htable p hp) t
  · rw [o.filter_isDigit_fold, o.filter_isDigit_strip]

theorem filter_isDigit_unbox (s : Text) :
    (o.unbox s).filter Char.isDigit = s.filter Char.isDigit := by
  unfold unbox
  split
  · exact filter_removeCommand_unwrap rfl rfl (by decide)
  · rfl

end Options

theorem isBalanced_source_of_isUnbalanced {o : Options} {s : Text}
    (h : (isolate o s).isUnbalanced = false) : isBalanced (o.source s) = true := by
  cases hs : isBalanced (o.source s) with
  | true => rfl
  | false =>
    rw [isolate_of_not_isBalanced hs] at h
    cases h

/-- Isolating an answer only selects: it returns a contiguous part of the unboxed source that holds
    none of the marks at which it was cut, and its digits are a block of those of the text. -/
theorem isolate_selects (o : Options) {s : Text} (h : (isolate o s).isUnbalanced = false) :
    (isolate o s).content <:+: o.unbox (o.source s) ∧
      '=' ∉ (isolate o s).content ∧
      ¬ command "quad" <:+: (isolate o s).content ∧
      (o.extractBoxed = true → ¬ command "boxed" <:+: (isolate o s).content) ∧
      (isolate o s).content.filter Char.isDigit <:+: s.filter Char.isDigit := by
  rw [isolate_of_isBalanced (isBalanced_source_of_isUnbalanced h)]
  have hpart := o.isolateIn_isInfix (o.source s)
  have hdigits := hpart.filter Char.isDigit
  rw [o.filter_isDigit_unbox, o.filter_isDigit_source] at hdigits
  exact ⟨hpart, o.not_mem_isolateIn _, o.not_isInfix_quad_isolateIn _,
    fun hboxed => Options.not_isInfix_boxed_isolateIn hboxed _, hdigits⟩

/-- In `9≥v=\boxed{{1\,2}}\quad 7` the answer stands behind a relation, in a box and in front of a
    unit, and its digits are the middle ones of four. -/
theorem isolate_selects_equation :
    (isolate .unicodeAware "9≥v=\\boxed\x7b\x7b1\\,2\x7d\x7d\\quad 7".toList).isUnbalanced = false ∧
      (isolate .unicodeAware "9≥v=\\boxed\x7b\x7b1\\,2\x7d\x7d\\quad 7".toList).content.filter
        Char.isDigit <:+: ['9', '1', '2', '7'] := by
  have h : (isolate .unicodeAware
      "9≥v=\\boxed\x7b\x7b1\\,2\x7d\x7d\\quad 7".toList).isUnbalanced = false := by decide +kernel
  exact ⟨h, (isolate_selects .unicodeAware h).2.2.2.2⟩

end TidyTex
