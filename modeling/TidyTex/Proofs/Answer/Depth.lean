import TidyTex.Proofs.Brace.Scope
import TidyTex.Proofs.Nesting.Brace
import TidyTex.Proofs.Session
import TidyTex.Proofs.Stability.Isolation

/-! An answer deep inside outer braces.

    Two passes take outer braces off, one on either side of the cuts, and each stops at a limit of
    its own. A text with nothing in it to cut at goes from one pass to the next as it is, so the
    limits add up:

        pairs around the answer     10      11      29      30
        left by the first pass       0       1      19      20
        left by the second           0       0       0       1

    A pass warns when it leaves a pair. The first one leaves a pair from 11 on and the second one
    from 30 on, where both warnings are pending (`isolate_wrapped`). -/

namespace TidyTex

open Text

namespace Text

/-- A text inside `n` pairs of braces. -/
def wrapped (n : Nat) (w : Text) : Text :=
  List.replicate n '{' ++ (w ++ List.replicate n '}')

@[simp] theorem wrapped_zero (w : Text) : wrapped 0 w = w := by
  simp [wrapped]

theorem wrapped_succ (n : Nat) (w : Text) : wrapped (n + 1) w = braced (wrapped n w) := by
  rw [wrapped, wrapped, List.replicate_succ, List.replicate_succ' (n := n) (a := '}')]
  simp [braced]

/-- The characters by which isolating finds something to do in a balanced text. -/
def answerMarks : List Char := ['{', '}', '\\', '=', '<', '>']

section
variable {w : Text} (hplain : ∀ c ∈ w, c ∉ answerMarks) (n : Nat)
include hplain

/-- The pairs of braces are all that a text without marks comes to have. -/
theorem mem_wrapped {c : Char} (hc : c ∈ wrapped n w) (hmark : c ∈ answerMarks) :
    isBrace c = true := by
  rw [wrapped, List.mem_append, List.mem_append, List.mem_replicate, List.mem_replicate] at hc
  rcases hc with ⟨-, rfl⟩ | hc | ⟨-, rfl⟩
  · rfl
  · exact absurd hmark (hplain c hc)
  · rfl

/-- What begins with a mark that is no brace does not occur. -/
theorem not_isInfix_wrapped {c : Char} {mark : Text} (hmark : c ∈ answerMarks)
    (hbrace : isBrace c = false) : ¬ c :: mark <:+: wrapped n w := by
  intro h
  have hc := mem_wrapped hplain n (h.subset (List.mem_cons_self ..)) hmark
  rw [hbrace] at hc
  cases hc

theorem not_isInfix_wrapped_of_mem_relationSigns :
    ∀ sign ∈ relationSigns, ¬ sign.spelling <:+: wrapped n w := by
  have hhead : ∀ sign ∈ relationSigns, ∃ c mark, sign.spelling = c :: mark ∧ c ∈ answerMarks ∧
      isBrace c = false := by
    simp [relationSigns, Sign.spelling, command, answerMarks, isBrace]
  intro sign hsign
  obtain ⟨c, mark, hspelling, hmark, hbrace⟩ := hhead sign hsign
  rw [hspelling]
  exact not_isInfix_wrapped hplain n hmark hbrace

theorem scopeContent_of_plain : ScopeContent w := by
  induction w with
  | nil => exact .nil
  | cons c w ih =>
    rw [List.forall_mem_cons] at hplain
    have hc : c ≠ '\\' ∧ c ≠ '{' ∧ c ≠ '}' := by
      refine ⟨?_, ?_, ?_⟩ <;> rintro rfl <;> simp [answerMarks] at hplain
    exact .char hc (ih hplain.2)

/-- A text inside braces is content of a scope. -/
theorem scopeContent_wrapped : ScopeContent (wrapped n w) := by
  induction n with
  | zero => simpa using scopeContent_of_plain hplain
  | succ n ih =>
    rw [wrapped_succ]
    exact .group ih .nil

/-! ### One pass -/

theorem stripOuter?_wrapped_succ : stripOuter? (wrapped (n + 1) w) = some (wrapped n w) := by
  have hscope : scopeBody? 0 (wrapped n w ++ ['}']) = some ⟨wrapped n w, []⟩ :=
    scopeBody?_eq_some_iff.2 ⟨rfl, scopeContent_wrapped hplain n⟩
  rw [wrapped_succ]
  exact stripOuter?_eq_some_iff.2
    ⟨⟨[], wrapped n w ++ ['}']⟩, _, rfl, rfl, hscope, List.not_mem_nil, rfl⟩

theorem stripOuter?_eq_none_of_plain : stripOuter? w = none := by
  cases h : stripOuter? w with
  | none => rfl
  | some t =>
    obtain ⟨a, b, hw⟩ := append_of_stripOuter? h
    have hmem : '{' ∈ w := by simp [hw]
    exact absurd (by simp [answerMarks]) (hplain '{' hmem)

theorem isSome_stripOuter?_wrapped_iff : (stripOuter? (wrapped n w)).isSome ↔ 0 < n := by
  cases n with
  | zero => simp [stripOuter?_eq_none_of_plain hplain]
  | succ n => simp [stripOuter?_wrapped_succ hplain]

/-- Strips take as many pairs off as there are, up to the limit. -/
theorem stripOuters_wrapped (limit : Nat) :
    stripOuters limit (wrapped n w) = (wrapped (n - limit) w, min n limit) := by
  induction limit generalizing n with
  | zero => simp [stripOuters]
  | succ limit ih =>
    cases n with
    | zero =>
      rw [stripOuters, wrapped_zero, repeatAtMost_of_none (stripOuter?_eq_none_of_plain hplain)]
      simp
    | succ n =>
      have hrest : repeatAtMost stripOuter? limit (wrapped n w) = _ := ih n
      rw [stripOuters, repeatAtMost_succ_of_some (stripOuter?_wrapped_succ hplain n), hrest]
      simp [Nat.add_min_add_right]

/-- A pass leaves the pairs beyond its limit, and warns if there are any. -/
theorem stripPass_wrapped (pass : Pass) :
    stripPass pass (wrapped n w) =
      ⟨wrapped (n - pass.limit) w, if pass.limit < n then [.limitReached pass] else []⟩ := by
  have hcond : min n pass.limit = pass.limit ∧ (stripOuter? (wrapped (n - pass.limit) w)).isSome ↔
      pass.limit < n := by
    rw [isSome_stripOuter?_wrapped_iff hplain]
    omega
  simp only [stripPass, stripOuters_wrapped hplain, hcond]

/-! ### What else is done to the text -/

theorem literalBracesToParens_wrapped : literalBracesToParens (wrapped n w) = wrapped n w := by
  refine Replacement.applyAll_eq_self ?_
  simp [literalBraces, not_isInfix_wrapped hplain n (c := '\\') (by simp [answerMarks]) rfl]

theorem beforeQuad_wrapped : beforeQuad (wrapped n w) = wrapped n w :=
  beforeQuad_eq_self_iff.2 (not_isInfix_wrapped hplain n (by simp [answerMarks]) rfl)

theorem unbox_wrapped : Options.default.unbox (wrapped n w) = wrapped n w :=
  removeCommand_eq_self (not_isInfix_wrapped hplain n (by simp [answerMarks]) rfl)

end

theorem trimmed_wrapped {w : Text} (h : Trimmed w) (n : Nat) : Trimmed (wrapped n w) := by
  cases n with
  | zero => simpa using h
  | succ n =>
    have hlast : (braced (wrapped n w)).getLast? = some '}' :=
      List.getLast?_concat (l := '{' :: wrapped n w)
    rw [wrapped_succ, Trimmed, hlast]
    constructor <;> rintro c ⟨⟩ <;> rfl

theorem isBalanced_wrapped {w : Text} (h : isBalanced w = true) (n : Nat) :
    isBalanced (wrapped n w) = true := by
  induction n with
  | zero => simpa using h
  | succ n ih =>
    rw [isBalanced_iff_nests] at ih ⊢
    rw [wrapped_succ]
    exact nests_braced seesBraces_all ih

end Text

namespace Session

/-- An answer that is balanced, has no blank at either end and no mark in it comes out of `n` pairs
    of braces with those around it that are beyond the limits of both passes, which are 10 and 19.
    The first pass warns from 11 pairs on, and the second one, behind it, from 30 pairs on. -/
theorem isolate_wrapped {w : Text} (htrimmed : Trimmed w) (hbalanced : isBalanced w = true)
    (hplain : ∀ c ∈ w, c ∉ answerMarks) (n : Nat) :
    isolate ⟨.default, []⟩ (wrapped n w) =
        (wrapped (n - 29) w, ⟨.default, (if 10 < n then [.limitReached .leadingBraces] else []) ++
          if 29 < n then [.limitReached .trailingBraces] else []⟩) ∧
      Pass.leadingBraces.limit = 10 ∧ Pass.trailingBraces.limit = 19 := by
  have hsource : Options.default.source (wrapped n w) = wrapped n w :=
    literalBracesToParens_wrapped hplain n
  have hside : rightHandSide (wrapped (n - 10) w) = wrapped (n - 10) w :=
    rightHandSide_eq_self_iff.2
      ⟨not_isInfix_wrapped_of_mem_relationSigns hplain _, trimmed_wrapped htrimmed _⟩
  have hleft : n - 10 - 19 = n - 29 := by omega
  have hmore : 19 < n - 10 ↔ 29 < n := by omega
  refine ⟨?_, rfl, rfl⟩
  rw [isolate_eq, isolate_of_isBalanced (by rw [hsource]; exact isBalanced_wrapped hbalanced n),
    hsource, Options.isolateIn, unbox_wrapped hplain, stripPass_wrapped hplain]
  simp only [record, Report.andThen, Pass.limit, beforeQuad_wrapped hplain, hside,
    stripPass_wrapped hplain, hleft, hmore, warn, List.nil_append]
  rfl

/-- Of 30 pairs around `f[x](2)` one is left, and both passes warn. -/
theorem isolate_wrapped_both :
    Trimmed "f[x](2)".toList ∧ isBalanced "f[x](2)".toList = true ∧
      (∀ c ∈ "f[x](2)".toList, c ∉ answerMarks) ∧
      isolate ⟨.default, []⟩ (wrapped 30 "f[x](2)".toList) = ("{f[x](2)}".toList,
        ⟨.default, [.limitReached .leadingBraces, .limitReached .trailingBraces]⟩) := by
  have htrimmed : Trimmed "f[x](2)".toList := by
    constructor <;> rintro c ⟨⟩ <;> decide
  have hbalanced : isBalanced "f[x](2)".toList = true := by decide
  have hall : "f[x](2)".toList.all (· ∉ answerMarks) = true := rfl
  have hplain : ∀ c ∈ "f[x](2)".toList, c ∉ answerMarks :=
    fun c hc => of_decide_eq_true (List.all_eq_true.1 hall c hc)
  exact ⟨htrimmed, hbalanced, hplain, (isolate_wrapped htrimmed hbalanced hplain 30).1⟩

end Session

end TidyTex
