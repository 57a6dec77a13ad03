import TidyTex.Normalize
import TidyTex.Proofs.Fraction.Exponent
import TidyTex.Proofs.Vector
import TidyTex.Proofs.Warning

/-! What it means that a pass has reached its limit.

    A pass over braces looks once more when it has run as often as it may, and warns when there is
    still a brace to strip. The pass over fractions in exponents does not look again: it warns when
    the last run that it may do was needed. The two ways differ at one point:

        fractions after `^`      99       100       101
        warning                  no       yes       yes
        one left                 no       no        yes

    So a warning of braces says that work is left, and so does one of fractions, unless there were
    exactly as many of them as the limit (`limitReached_iff`). -/

namespace TidyTex

open Text

/-- Whether a place warns of something hangs on its condition alone. -/
theorem mem_ite_warning_iff {c : Prop} [Decidable c] {w : Warning} :
    w ∈ (if c then [w] else []) ↔ c := by
  split
  · next h => exact iff_of_true (List.mem_singleton_self w) h
  · next h => exact iff_of_false List.not_mem_nil h

/-- A pass over braces warns exactly when it leaves a brace to strip. -/
theorem limitReached_mem_stripPass_iff {pass : Pass} {s : Text} :
    .limitReached pass ∈ (stripPass pass s).warnings ↔
      (stripOuter? (stripPass pass s).content).isSome := by
  unfold stripPass
  rw [mem_ite_warning_iff]
  refine ⟨And.right, fun hsome => ⟨?_, hsome⟩⟩
  have hle : (stripOuters pass.limit s).2 ≤ pass.limit := repeatAtMost_le _ _
  refine Nat.le_antisymm hle (Nat.not_lt.1 fun hlt => ?_)
  rw [show stripOuter? (stripOuters pass.limit s).1 = none from step_eq_none_of_lt hlt] at hsome
  cases hsome

/-- A pass over braces warns of nothing but itself. -/
theorem limitReached_not_mem_stripPass {pass other : Pass} (h : other ≠ pass) (s : Text) :
    .limitReached other ∉ (stripPass pass s).warnings := by
  intro hmem
  have heq := List.mem_singleton.1 ((warnings_stripPass_sublist pass s).subset hmem)
  exact h (Warning.limitReached.inj heq)

/-- The pass over fractions warns when there are as many of them as it may take, or more. -/
theorem limitReached_mem_promotePass_iff {s : Text} :
    .limitReached .exponentFractions ∈ (promotePass s).warnings ↔
      Fraction.maxPromotions ≤ occurrences Fraction.exponentHead s := by
  unfold promotePass
  rw [mem_ite_warning_iff, (Fraction.promote_countdown s).1]
  have hlimit : Pass.exponentFractions.limit = Fraction.maxPromotions := rfl
  omega

/-- The pass over fractions leaves one when there are more than it may take. -/
theorem promoteOnce?_promote_isSome_iff {s : Text} :
    (Fraction.promoteOnce? (Fraction.promote s).1).isSome ↔
      Fraction.maxPromotions < occurrences Fraction.exponentHead s := by
  rw [Option.isSome_iff_ne_none, Ne, Fraction.promoteOnce?_eq_none_iff,
    (Fraction.promote_countdown s).2]
  omega

/-- The text in which fractions in exponents are put in braces. -/
def Options.arranged (o : Options) (s : Text) : Text :=
  arrangeVectors
    (Fraction.braceShorthand (unifySpellings (deleteCosmetics (removeStyling (o.fold s)))))

theorem warnings_canonicalize (o : Options) (s : Text) :
    (canonicalize o s).warnings = (promotePass (o.arranged s)).warnings :=
  List.append_nil _

/-- A warning of braces says that the text it was raised on has one more to strip. A warning of
    fractions in exponents says that there is one more to promote, or that there were exactly as
    many as the limit. -/
theorem limitReached_iff (o : Options) (s : Text) :
    (.limitReached .leadingBraces ∈ (isolate o s).warnings ↔
        isBalanced (o.source s) = true ∧
          (stripOuter? (stripPass .leadingBraces (o.unbox (o.source s))).content).isSome) ∧
      (.limitReached .trailingBraces ∈ (isolate o s).warnings ↔
        isBalanced (o.source s) = true ∧ (stripOuter? (isolate o s).content).isSome) ∧
      (.limitReached .exponentFractions ∈ (canonicalize o s).warnings ↔
        (Fraction.promoteOnce? (Fraction.promote (o.arranged s)).1).isSome ∨
          occurrences Fraction.exponentHead (o.arranged s) = Fraction.maxPromotions) ∧
      Fraction.maxPromotions = 100 := by
  have hne : Pass.trailingBraces ≠ Pass.leadingBraces := nofun
  refine ⟨?_, ?_, ?_, rfl⟩
  · cases h : isBalanced (o.source s) with
    | true =>
      have hother := fun t => limitReached_not_mem_stripPass hne.symm t
      rw [isolate_of_isBalanced h, Options.isolateIn, Report.warnings_andThen, List.mem_append,
        or_iff_left (hother _), limitReached_mem_stripPass_iff]
      exact (and_iff_right rfl).symm
    | false => rw [isolate_of_not_isBalanced h]; simp
  · cases h : isBalanced (o.source s) with
    | true =>
      have hother := fun t => limitReached_not_mem_stripPass hne t
      rw [isolate_of_isBalanced h, Options.isolateIn, Report.warnings_andThen, List.mem_append,
        or_iff_right (hother _), limitReached_mem_stripPass_iff]
      exact (and_iff_right rfl).symm
    | false => rw [isolate_of_not_isBalanced h]; simp
  · rw [warnings_canonicalize, limitReached_mem_promotePass_iff, promoteOnce?_promote_isSome_iff]
    omega

/-! ### As many fractions as the limit -/

/-- A product of `n` square roots, each written as a power. -/
def roots (n : Nat) : Text := (List.replicate n "x^\\frac{1}{2}".toList).flatten

theorem mem_roots {n : Nat} {c : Char} (h : c ∈ roots n) : c ∈ "x^\\frac{1}{2}".toList := by
  obtain ⟨root, hroot, hc⟩ := List.mem_flatten.1 h
  rwa [List.eq_of_mem_replicate hroot] at hc

/-- Whether a text has a character that is in no root. -/
def isForeign (w : Text) : Bool := w.any fun c => !"x^\\frac{1}{2}".toList.contains c

theorem not_isInfix_roots {w : Text} (h : isForeign w = true) (n : Nat) : ¬ w <:+: roots n := by
  obtain ⟨c, hw, hc⟩ := List.any_eq_true.1 h
  intro hroots
  have hroot := List.contains_iff_mem.2 (mem_roots (hroots.subset hw))
  rw [hroot] at hc
  cases hc

theorem removeStyling_roots (n : Nat) : removeStyling (roots n) = roots n := by
  have hforeign : (deletedCommands ++ unwrappedCommands).all isForeign = true := by decide
  have hkeep : ∀ {r name}, name ∈ deletedCommands ++ unwrappedCommands →
      ∀ t, t = roots n → removeCommand .anywhere r name t = roots n := by
    rintro r name hname t rfl
    exact removeCommand_eq_self (not_isInfix_roots (List.all_eq_true.1 hforeign name hname) n)
  refine List.foldlRecOn (motive := (· = roots n)) unwrappedCommands _ ?_ ?_
  · refine List.foldlRecOn (motive := (· = roots n)) deletedCommands _ rfl ?_
    exact fun t ht name hname => hkeep (List.mem_append_left _ hname) t ht
  · exact fun t ht name hname => hkeep (List.mem_append_right _ hname) t ht

theorem applyAll_roots {table : List Replacement} (h : table.all (isForeign ·.old) = true)
    (n : Nat) : Replacement.applyAll table (roots n) = roots n := by
  refine Replacement.applyAll_induction (P := (· = roots n)) ?_ rfl
  rintro p hp t rfl
  exact Rule.pass_eq_self (not_isInfix_roots (List.all_eq_true.1 h p hp) n)

/-- Both arguments of each fraction are in braces already. -/
theorem braceShorthand_roots (n : Nat) : Fraction.braceShorthand (roots n) = roots n := by
  have hbefore : ∀ {c t}, c ≠ '\\' → Fraction.braceShorthand (c :: t) =
      c :: Fraction.braceShorthand t := by
    intro c t hc
    refine Rule.pass_cons_of_fire? (Rule.fire?_eq_none_of_not_isPrefix fun hp => ?_)
    exact hc (List.cons_prefix_cons.1 hp).1.symm
  have hfraction : ∀ t, Fraction.braceShorthand ("\\frac{1}{2}".toList ++ t) =
      "\\frac{1}{2}".toList ++ Fraction.braceShorthand t := fun t => Rule.pass_of_fire? rfl
  induction n with
  | zero => exact Rule.pass_nil _
  | succ n ih =>
    have hsplit : roots (n + 1) = 'x' :: '^' :: ("\\frac{1}{2}".toList ++ roots n) := rfl
    rw [hsplit, hbefore (by decide), hbefore (by decide), hfraction, ih]

theorem occurrences_roots (n : Nat) : occurrences Fraction.exponentHead (roots n) = n := by
  induction n with
  | zero => rfl
  | succ n ih =>
    have hsplit : roots (n + 1) = "x^\\frac{1}\x7b2".toList ++ '}' :: roots n := rfl
    have hfirst : occurrences Fraction.exponentHead "x^\\frac{1}\x7b2".toList = 1 := rfl
    rw [hsplit, Fraction.exponentHead, occurrences_append_cons (by decide),
      occurrences_cons_of_ne (by decide), ← Fraction.exponentHead, hfirst, ih, Nat.add_comm]

/-- A product of roots has nothing to arrange but its exponents. -/
theorem arranged_roots (n : Nat) : Options.default.arranged (roots n) = roots n := by
  have hvec : ¬ command "vec" <:+: roots n := not_isInfix_roots (by decide) n
  have hopening : ¬ Vector.opening <:+: roots n := not_isInfix_roots (by decide) n
  have hfold : Options.default.fold (roots n) = roots n := rfl
  rw [Options.arranged, hfold, removeStyling_roots, deleteCosmetics, applyAll_roots (by decide),
    unifySpellings, applyAll_roots (by decide), braceShorthand_roots, arrangeVectors,
    Vector.flattenBars_eq_self hopening, Vector.moveSubscriptOut, Rule.pass_eq_self hopening,
    Vector.braceBareArgument, Rule.pass_eq_self hvec]

/-- A hundred fractions in exponents are all put in braces, and yet the pass warns of its limit. -/
theorem limitReached_and_finished :
    .limitReached .exponentFractions ∈ (canonicalize .default (roots 100)).warnings ∧
      Fraction.promoteOnce? (Fraction.promote (Options.default.arranged (roots 100))).1 = none := by
  rw [warnings_canonicalize, limitReached_mem_promotePass_iff, Fraction.promoteOnce?_eq_none_iff,
    (Fraction.promote_countdown _).2, arranged_roots, occurrences_roots]
  exact ⟨Nat.le_refl _, Nat.sub_self _⟩

end TidyTex
