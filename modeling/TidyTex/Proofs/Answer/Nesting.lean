import TidyTex.Proofs.Answer.Selection
import TidyTex.Proofs.Brace.Escape
import TidyTex.Proofs.Nesting.Outside
import TidyTex.Proofs.Nesting.Rewriting

/-! Balance of an isolated answer.

    Three readings of nesting meet when an answer is isolated:

        balance      all three pairs of delimiters, a backslash counts for nothing
        boxes        braces only, a backslash counts for nothing
        strips       braces only, a brace behind a backslash is text

    They agree on a balanced source in which no backslash escapes anything, and unboxing keeps it
    so. What is left to break the balance are the cuts at `\quad` and behind a relation, and they do
    not when what they look for occurs outside all groups (`isBalanced_isolate`). -/

namespace TidyTex

open Text

variable {seen : Char → Bool}

namespace Text

/-! ### Strips -/

/-- In a text without literal braces, the group that a strip returns nests. -/
theorem nests_stripOuter? (hseen : SeesBraces seen) {s t : Text} (hfree : LiteralFree s)
    (hs : Nests seen s) (h : stripOuter? s = some t) : Nests seen t := by
  obtain ⟨k, body, hk, -, hbody, -, rfl⟩ := stripOuter?_eq_some_iff.1 h
  have hsplit := append_of_firstBrace? hk
  rw [hsplit] at hfree hs
  obtain ⟨low, -, hrest⟩ := openAfter_append_eq_some_iff.1 hs
  obtain ⟨x, u, -, hgroup, hx, -⟩ := exists_group hseen hrest (Nat.zero_le _)
  have hafter : LiteralFree k.after := hfree.right_of_append.tail
  have hscope := groupBody_of_scopeBody? hafter hbody
  rw [hgroup, Cut.mk.injEq] at hscope
  rw [← hscope.1]
  exact hx

theorem nests_stripOuters (hseen : SeesBraces seen) (limit : Nat) {s : Text}
    (hfree : LiteralFree s) (hs : Nests seen s) : Nests seen (stripOuters limit s).1 := by
  have h : LiteralFree (stripOuters limit s).1 ∧ Nests seen (stripOuters limit s).1 := by
    refine repeatAtMost_induction (P := fun t => LiteralFree t ∧ Nests seen t) ?_ limit ⟨hfree, hs⟩
    rintro t u htu ⟨hfree, hs⟩
    obtain ⟨a, b, hsplit⟩ := append_of_stripOuter? htu
    refine ⟨hfree.of_isInfix ⟨a ++ ['{'], '}' :: b, ?_⟩, nests_stripOuter? hseen hfree hs htu⟩
    rw [hsplit]
    simp
  exact h.2

/-! ### Cuts -/

theorem nests_trim_iff {s : Text} : Nests seen (trim s) ↔ Nests seen s := by
  have hblank : ∀ d : Delimiter, isBlank d.opening = false ∧ isBlank d.closing = false := by
    intro d
    cases d <;> decide
  have htail : Nests seen ((trimLeft s).reverse.takeWhile isBlank).reverse := by
    refine nests_of_kind hblank ?_
    intro c hc
    exact List.all_eq_true.1 List.all_takeWhile c (List.mem_reverse.1 hc)
  rw [trim, trimRight, ← nests_append_iff_of_right htail, ← List.reverse_append,
    List.takeWhile_append_dropWhile, List.reverse_reverse, trimLeft, nests_dropWhile_iff hblank]

end Text

/-- The texts at which an answer is cut. -/
def cutMarks : List Text := command "quad" :: relationSigns.map Sign.spelling

theorem delimiterFree_of_mem_cutMarks : ∀ mark ∈ cutMarks, DelimiterFree mark := by decide

theorem Sign.nests_passOver_iff (sign : Sign) {s : Text} :
    Nests seen (sign.passOver s) ↔ Nests seen s := by
  cases sign with
  | symbol c => exact Iff.rfl
  | command name =>
    have halpha : ∀ d : Delimiter, d.opening.isAlpha = false ∧ d.closing.isAlpha = false := by
      intro d
      cases d <;> decide
    exact nests_dropWhile_iff halpha

/-- A balanced text is balanced behind a sign that occurs outside all groups. -/
theorem Sign.isBalanced_afterLast? {sign : Sign} {s t : Text} (hfree : DelimiterFree sign.spelling)
    (hs : isBalanced s = true) (hout : OutsideGroups sign.spelling s)
    (h : sign.afterLast? s = some t) : isBalanced t = true := by
  obtain ⟨k, hk, rfl⟩ := Option.map_eq_some_iff.1 h
  have hsplit := append_of_cutLast? hk
  have hbefore := isBalanced_before_of_outsideGroups hs hout hsplit
  rw [isBalanced_iff_nests] at hs hbefore ⊢
  rw [hsplit, nests_append_iff_of_left (hbefore.append hfree.nests)] at hs
  exact sign.nests_passOver_iff.2 hs

theorem isBalanced_rightHandSide {s : Text} (hs : isBalanced s = true)
    (hout : ∀ mark ∈ cutMarks, OutsideGroups mark s) : isBalanced (rightHandSide s) = true := by
  rw [isBalanced_iff_nests, rightHandSide, nests_trim_iff, ← isBalanced_iff_nests]
  cases h : relationSigns.findSome? fun sign => sign.afterLast? s with
  | none => exact hs
  | some t =>
    obtain ⟨sign, hmem, hsign⟩ := List.exists_of_findSome?_eq_some h
    have hmark : sign.spelling ∈ cutMarks :=
      List.mem_cons_of_mem _ (List.mem_map.2 ⟨sign, hmem, rfl⟩)
    exact Sign.isBalanced_afterLast? (delimiterFree_of_mem_cutMarks _ hmark) hs (hout _ hmark) hsign

theorem isBalanced_beforeQuad {s : Text} (hs : isBalanced s = true)
    (hout : OutsideGroups (command "quad") s) : isBalanced (beforeQuad s) = true := by
  unfold beforeQuad
  cases h : cutFirst? (command "quad") s with
  | none => exact hs
  | some k => exact isBalanced_before_of_outsideGroups hs hout (append_of_cutFirst? h)

/-! ### Isolation -/

namespace Options

variable (o : Options) {source : Text}

theorem nests_unbox (hseen : SeesBraces seen) (h : Nests seen source) :
    Nests seen (o.unbox source) := by
  have hname : DelimiterFree (command "boxed") := by decide
  unfold unbox
  split
  · exact nests_removeCommand hseen hname.nests h
  · exact h

theorem escapeFree_unbox (h : EscapeFree source) : EscapeFree (o.unbox source) := by
  unfold unbox
  split
  · exact escapeFree_removeCommand h
  · exact h

/-- The text that is cut: the source without boxes and leading braces. -/
def unwrapped (source : Text) : Text := (stripPass .leadingBraces (o.unbox source)).content

/-- An answer is balanced when its source is, unless an escape or a cut inside a group gets in the
    way. -/
theorem isBalanced_isolateIn (hs : isBalanced source = true) (hescape : EscapeFree source)
    (hout : ∀ mark ∈ cutMarks, OutsideGroups mark (o.unwrapped source)) :
    isBalanced (o.isolateIn source).content = true := by
  have hfree : LiteralFree (o.unbox source) := (o.escapeFree_unbox hescape).literalFree
  have hunwrapped : isBalanced (o.unwrapped source) = true := by
    rw [isBalanced_iff_nests] at hs ⊢
    exact nests_stripOuters seesBraces_all _ hfree (o.nests_unbox seesBraces_all hs)
  have hquad : isBalanced (beforeQuad (o.unwrapped source)) = true :=
    isBalanced_beforeQuad hunwrapped (hout _ (List.mem_cons_self ..))
  have hside : isBalanced (rightHandSide (beforeQuad (o.unwrapped source))) = true :=
    isBalanced_rightHandSide hquad fun mark hmark =>
      (hout mark hmark).of_isPrefix (beforeQuad_isPrefix _)
  have hsideFree : LiteralFree (rightHandSide (beforeQuad (o.unwrapped source))) := by
    refine hfree.of_isInfix ((rightHandSide_isInfix _).trans ?_)
    exact (beforeQuad_isPrefix _).isInfix.trans (stripPass_isInfix .leadingBraces _)
  rw [isBalanced_iff_nests] at hside ⊢
  exact nests_stripOuters seesBraces_all _ hsideFree hside

end Options

/-- Isolating an answer unbalances a text only by a cut inside a group, if no two backslashes stand
    in a row. -/
theorem isBalanced_isolate (o : Options) {s : Text} (h : (isolate o s).isUnbalanced = false)
    (hback : ¬ ['\\', '\\'] <:+: o.source s)
    (hout : ∀ mark ∈ cutMarks, OutsideGroups mark (o.unwrapped (o.source s))) :
    isBalanced (isolate o s).content = true := by
  have hs := isBalanced_source_of_isUnbalanced h
  have hescape : EscapeFree (o.source s) := (literalFree_literalBracesToParens _).escapeFree hback
  rw [isolate_of_isBalanced hs]
  exact o.isBalanced_isolateIn hs hescape hout

/-- From `\boxed{S=\{1,x_{2}\}}\quad m` a box is taken, literal braces become parentheses, and the
    text is cut twice. -/
theorem isBalanced_isolate_boxed :
    isBalanced
      (isolate .default "\\boxed\x7bS=\\\x7b1,x_{2}\\\x7d\x7d\\quad m".toList).content = true := by
  have hsource : Options.default.source "\\boxed\x7bS=\\\x7b1,x_{2}\\\x7d\x7d\\quad m".toList =
      "\\boxed{S=(1,x_{2})}\\quad m".toList := by decide +kernel
  have hunwrapped : Options.default.unwrapped "\\boxed{S=(1,x_{2})}\\quad m".toList =
      "S=(1,x_{2})\\quad m".toList := by decide +kernel
  refine isBalanced_isolate .default (by decide +kernel) ?_ ?_
  · rw [hsource]
    exact cutFirst?_eq_none_iff.1 (by decide)
  · rw [hsource, hunwrapped]
    have hplaces : ∀ mark ∈ cutMarks, ∀ n ≤ "S=(1,x_{2})\\quad m".toList.length,
        mark <+: "S=(1,x_{2})\\quad m".toList.drop n →
          isBalanced ("S=(1,x_{2})\\quad m".toList.take n) = true := by decide +kernel
    intro mark hmark
    rw [outsideGroups_iff (by decide) (delimiterFree_of_mem_cutMarks mark hmark),
      forall_occurrence_iff]
    exact hplaces mark hmark

end TidyTex
