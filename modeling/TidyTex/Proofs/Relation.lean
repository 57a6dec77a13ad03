import TidyTex.Proofs.Canonical.CommandName
import TidyTex.Proofs.Stability.Isolation

/-! Which texts are kept whole when they are looked through for a relation.

    A sign is looked for as a plain piece of text, and a command that is found takes the letters
    along that continue it:

        x\geq 3      `\ge` found, cut behind `\geq`      ──▶  3
        a\left(b     `\le` found, cut behind `\left`     ──▶  (b

    So each command is cut at whose name begins with `approx`, `ge` or `le`, whether it stands for a
    relation or not (`rightHandSide_eq_trim_iff`). What stands before it is lost: a cut takes more
    than blanks away, so no trimming can make up for it. -/

namespace TidyTex

open Text

namespace Text

/-- A text without its blanks. -/
def inked (s : Text) : Text := s.filter fun c => !isBlank c

theorem inked_append (s t : Text) : inked (s ++ t) = inked s ++ inked t := List.filter_append _ _

theorem inked_of_isBlank {s : Text} (h : ∀ c ∈ s, isBlank c = true) : inked s = [] := by
  rw [inked, List.filter_eq_nil_iff]
  intro c hc
  rw [h c hc]
  exact Bool.false_ne_true

theorem inked_trimLeft (s : Text) : inked (trimLeft s) = inked s := by
  have hblank : inked (s.takeWhile isBlank) = [] :=
    inked_of_isBlank (List.all_eq_true.1 List.all_takeWhile)
  conv => rhs; rw [← List.takeWhile_append_dropWhile (p := isBlank) (l := s), inked_append, hblank]
  rfl

theorem inked_reverse (s : Text) : inked s.reverse = (inked s).reverse := List.filter_reverse

/-- Trimming takes nothing but blanks away. -/
theorem inked_trim (s : Text) : inked (trim s) = inked s := by
  rw [trim, trimRight_eq, inked_reverse, inked_trimLeft, inked_reverse, List.reverse_reverse,
    inked_trimLeft]

end Text

/-- A cut behind a sign takes more than blanks away. -/
theorem Sign.length_inked_lt_of_afterLast? {sign : Sign} (hsign : sign ∈ relationSigns)
    {s t : Text} (h : sign.afterLast? s = some t) : (inked t).length < (inked s).length := by
  have hspelling : ∀ sign ∈ relationSigns, 0 < (inked sign.spelling).length := by decide
  obtain ⟨k, hk, rfl⟩ := Option.map_eq_some_iff.1 h
  have hpos := hspelling sign hsign
  have hle := ((sign.passOver_suffix k.after).sublist.filter fun c => !isBlank c).length_le
  conv => rhs; rw [append_of_cutLast? hk, inked_append, inked_append, List.length_append,
    List.length_append]
  exact Nat.lt_of_le_of_lt hle (by simp only [inked] at hpos ⊢; omega)

/-- A text is only trimmed where no sign of a relation is found in it. -/
theorem rightHandSide_eq_trim_iff_not_isInfix {s : Text} :
    rightHandSide s = trim s ↔ ∀ sign ∈ relationSigns, ¬ sign.spelling <:+: s := by
  constructor
  · intro h
    rw [← behindRelation_eq_self_iff, behindRelation]
    cases hcut : relationSigns.findSome? fun sign => sign.afterLast? s with
    | none => rfl
    | some t =>
      obtain ⟨sign, hsign, ht⟩ := List.exists_of_findSome?_eq_some hcut
      have hlt := Sign.length_inked_lt_of_afterLast? hsign ht
      have hinked := congrArg inked h
      rw [rightHandSide, hcut, Option.getD_some, inked_trim, inked_trim] at hinked
      rw [hinked] at hlt
      exact absurd hlt (Nat.lt_irrefl _)
  · intro h
    rw [rightHandSide_eq, Function.comp_apply, behindRelation_eq_self_iff.2 h]

/-- The characters that are relations. -/
def relationChars : List Char := ['=', '<', '>']

/-- The names with which the commands begin that are taken for relations. -/
def relationStems : List String := ["approx", "ge", "le"]

/-- No sign is found in a text without these characters and without commands that begin so: `\geq`
    and `\leq` begin like `\ge` and `\le`. -/
theorem forall_relationSigns_iff {s : Text} :
    (∀ sign ∈ relationSigns, ¬ sign.spelling <:+: s) ↔
      (∀ c ∈ relationChars, c ∉ s) ∧ ∀ stem ∈ relationStems, ¬ command stem <:+: s := by
  have hchars : ∀ sign ∈ relationChars.map Sign.symbol, sign ∈ relationSigns := by decide
  have hstems : ∀ stem ∈ relationStems, .command stem ∈ relationSigns := by decide
  have hsigns : ∀ sign ∈ relationSigns, sign ∈ relationChars.map Sign.symbol ∨
      ∃ stem ∈ relationStems, command stem <+: sign.spelling := by decide
  constructor
  · intro h
    refine ⟨fun c hc hmem => ?_, fun stem hstem => h _ (hstems stem hstem)⟩
    exact h _ (hchars _ (List.mem_map_of_mem hc)) ((List.singleton_infix_iff c s).2 hmem)
  · rintro ⟨hc, hstem⟩ sign hsign hinfix
    rcases hsigns sign hsign with hsymbol | ⟨stem, hmem, hstart⟩
    · obtain ⟨c, hmem, rfl⟩ := List.mem_map.1 hsymbol
      exact hc c hmem ((List.singleton_infix_iff c s).1 hinfix)
    · exact hstem stem hmem (hstart.isInfix.trans hinfix)

/-- A text is only trimmed, and not cut, exactly when it has none of the characters `=`, `<` and `>`
    and no command whose name begins with `approx`, `ge` or `le`. -/
theorem rightHandSide_eq_trim_iff (s : Text) :
    rightHandSide s = trim s ↔
      (∀ c ∈ relationChars, c ∉ s) ∧
        ∀ w ∈ commandNames s, ∀ stem ∈ relationStems, ¬ stem.toList <+: w := by
  have hletters : ∀ stem ∈ relationStems,
      stem.toList ≠ [] ∧ stem.toList.all Char.isAlpha = true := by decide
  have hcommand : ∀ stem ∈ relationStems,
      command stem <:+: s ↔ ∃ w ∈ commandNames s, stem.toList <+: w := by
    intro stem hstem
    obtain ⟨hne, hall⟩ := hletters stem hstem
    exact isInfix_command_iff hne (List.all_eq_true.1 hall)
  rw [rightHandSide_eq_trim_iff_not_isInfix, forall_relationSigns_iff]
  refine and_congr_right fun _ => ?_
  constructor
  · intro h w hw stem hstem hprefix
    exact h stem hstem ((hcommand stem hstem).2 ⟨w, hw, hprefix⟩)
  · intro h stem hstem hinfix
    obtain ⟨w, hw, hprefix⟩ := (hcommand stem hstem).1 hinfix
    exact h w hw stem hstem hprefix

/-- A text without a relation may be cut all the same: `a\left(b\right)` loses its `a` to the `\le`
    of `\left`. -/
theorem rightHandSide_ne_trim_of_left :
    ¬ ∀ s : Text, (∀ c ∈ relationChars, c ∉ s) →
      (∀ w ∈ commandNames s, w ∉ ["approx", "ge", "le", "geq", "leq"].map String.toList) →
        rightHandSide s = trim s := by
  intro h
  have hchars : relationChars.all (fun c => c ∉ "a\\left(b\\right)".toList) = true := by decide
  have hkept := h "a\\left(b\\right)".toList
    (fun c hc => of_decide_eq_true (List.all_eq_true.1 hchars c hc)) (by decide)
  have hcut : rightHandSide "a\\left(b\\right)".toList = "(b\\right)".toList := by decide +kernel
  have htrim : trim "a\\left(b\\right)".toList = "a\\left(b\\right)".toList := by decide +kernel
  rw [hcut, htrim] at hkept
  exact absurd hkept (by decide)

end TidyTex
