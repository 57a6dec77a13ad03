import Mathlib.Data.List.Sections
import TidyTex.Spelling
import TidyTex.Proofs.Replacement

/-! A sign as a character and as a command.

    `±` and `∓` end up as the signs that the commands `\pm` and `\mp` end up as, but not at the same
    time. The entries for a sign behind `_` and for a sign in braces stand in between:

                 respellings   \pm, \mp   {+}, _+, …   ±, ∓
        q_\pm    ──▶ q_\pm     ──▶ q_+    ──▶ q_p      ──▶ q_p
        q_±      ──▶ q_±       ──▶ q_±    ──▶ q_±      ──▶ q_+

    Everywhere else the two spellings end alike. The entries before the commands neither read nor
    write anything that has to do with a sign, so they do the same to both spellings; the commands
    make `+` and `-` of the one; and where no sign stands behind `_` or alone in braces, the entries
    in between find the same in both (`unifySpellings_writeSigns_iff`). -/

namespace TidyTex

namespace Text

open Replacement

/-- A character, or what is to be written for a sign. -/
def writeSign (plus minus : Text) (c : Char) : Text :=
  if c = '±' then plus else if c = '∓' then minus else [c]

/-- A text with `plus` for every `±` and `minus` for every `∓`. -/
def writeSigns (plus minus s : Text) : Text := s.flatMap (writeSign plus minus)

/-- The places at which an entry looks for `+` or `-`, with a sign as a character. -/
def signContexts : List Text := [braced ['±'], braced ['∓'], ['_', '±'], ['_', '∓']]

/-- The signs. -/
def signChars : Text := ['±', '∓']

theorem not_mem_signChars {c : Char} : c ∉ signChars ↔ c ≠ '±' ∧ c ≠ '∓' := by
  simp [signChars]

/-! ### The table in four parts -/

theorem unifySpellings_eq (s : Text) :
    unifySpellings s =
      applyAll signSymbols (applyAll signMarks (applyAll (respellings ++ signCommands) s)) := by
  have htable : literalReplacements = respellings ++ signCommands ++ signMarks ++ signSymbols := rfl
  rw [unifySpellings, htable, applyAll_append, applyAll_append]

/-! ### Signs that are written -/

variable {plus minus : Text} {p : Replacement} {s : Text}

theorem writeSigns_eq_self (hs : Avoids signChars s) : writeSigns plus minus s = s := by
  induction s with
  | nil => rfl
  | cons c s ih =>
    rw [Avoids, List.forall_mem_cons, not_mem_signChars] at hs
    rw [writeSigns, List.flatMap_cons, writeSign, if_neg hs.1.1, if_neg hs.1.2]
    exact congrArg (c :: ·) (ih hs.2)

/-- An entry that has nothing to do with signs is applied before or after they are written. What it
    makes of the signs, it makes of them then. -/
theorem apply_writeSigns {plus' minus' : Text}
    (hseparates : Separates p.old plus ∧ Separates p.old minus)
    (happly : p.apply plus = plus' ∧ p.apply minus = minus')
    (hsigns : Avoids signChars p.old ∧ Avoids signChars p.new) (s : Text) :
    p.apply (writeSigns plus minus s) = writeSigns plus' minus' (p.apply s) := by
  have hwrite : ∀ c, writeSign plus minus c = [c] ∨ Separates p.old (writeSign plus minus c) := by
    intro c
    rw [writeSign]
    split
    · exact Or.inr hseparates.1
    · split
      · exact Or.inr hseparates.2
      · exact Or.inl rfl
  refine apply_flatMap (fun c t _ => noneAcross_flatMap hwrite) ?_ (writeSigns_eq_self hsigns.1)
    (writeSigns_eq_self hsigns.2)
  intro c hc
  rw [writeSign, writeSign]
  split
  · exact happly.1
  · split
    · exact happly.2
    · exact apply_singleton hc

/-- The entries before those for signs are applied before or after the commands are written. -/
theorem applyAll_respellings_writeSigns (s : Text) :
    applyAll respellings (writeSigns (command "pm") (command "mp") s) =
      writeSigns (command "pm") (command "mp") (applyAll respellings s) := by
  have htable : ∀ p ∈ respellings,
      (Separates p.old (command "pm") ∧ Separates p.old (command "mp")) ∧
        (¬ p.old <:+: command "pm" ∧ ¬ p.old <:+: command "mp") ∧
        Avoids signChars p.old ∧ Avoids signChars p.new := by
    decide +kernel
  refine applyAll_comm (P := fun _ => True) ?_ trivial
  intro p hp t _
  obtain ⟨hseparates, ⟨hpm, hmp⟩, hsigns⟩ := htable p hp
  exact ⟨apply_writeSigns hseparates ⟨Rule.pass_eq_self hpm, Rule.pass_eq_self hmp⟩ hsigns t,
    trivial⟩

/-- The entries for the commands make `+` and `-` of the commands that were written. -/
theorem applyAll_signCommands_writeSigns (s : Text) :
    applyAll signCommands (writeSigns (command "pm") (command "mp") s) =
      writeSigns ['+'] ['-'] (applyAll signCommands s) := by
  have hplus : plusCommand.apply (writeSigns (command "pm") (command "mp") s) =
      writeSigns ['+'] (command "mp") (plusCommand.apply s) :=
    apply_writeSigns (by decide +kernel) (by decide +kernel) (by decide) s
  have hminus : minusCommand.apply (writeSigns ['+'] (command "mp") (plusCommand.apply s)) =
      writeSigns ['+'] ['-'] (minusCommand.apply (plusCommand.apply s)) :=
    apply_writeSigns (by decide +kernel) (by decide +kernel) (by decide) (plusCommand.apply s)
  rw [signCommands, applyAll_cons, applyAll_cons, hplus, hminus]
  rfl

/-! ### Signs as characters -/

/-- `+` for `±` and `-` for `∓`. -/
def plainSign (c : Char) : Char := if c = '±' then '+' else if c = '∓' then '-' else c

theorem writeSigns_plain (s : Text) : writeSigns ['+'] ['-'] s = s.map plainSign := by
  rw [writeSigns, List.map_eq_flatMap]
  congr 1
  funext c
  rw [writeSign, plainSign]
  split
  · rfl
  · split <;> rfl

theorem plainSign_not_mem (c : Char) : plainSign c ∉ signChars := by
  rw [plainSign]
  split
  · decide
  · split
    · decide
    next hplus hminus => exact not_mem_signChars.2 ⟨hplus, hminus⟩

/-- The characters that are `d` once the signs are plain. -/
def readings (d : Char) : List Char := [d, '±', '∓'].filter fun c => plainSign c = d

theorem mem_readings (c : Char) : c ∈ readings (plainSign c) := by
  rw [readings, List.mem_filter]
  refine ⟨?_, decide_eq_true rfl⟩
  by_cases hplus : c = '±'
  · simp [hplus]
  · by_cases hminus : c = '∓'
    · simp [hminus]
    · simp [plainSign, hplus, hminus]

theorem applyAll_signSymbols (s : Text) : applyAll signSymbols s = s.map plainSign := by
  simp only [signSymbols, applyAll, List.foldl_cons, List.foldl_nil]
  rw [apply_eq_flatMap rfl, apply_eq_flatMap rfl, List.flatMap_assoc, List.map_eq_flatMap]
  congr 1
  funext c
  rw [plainSign]
  split
  · rfl
  · simp only [List.flatMap_singleton]
    split <;> rfl

/-! ### Signs in braces and behind `_` -/

/-- What is an old text once the signs are plain is one already, or it has a sign in it. -/
theorem eq_or_mem_signContexts (hp : p ∈ signMarks) {w : Text} (hw : w.map plainSign = p.old) :
    w = p.old ∨ w ∈ signContexts := by
  have hall : ∀ p ∈ signMarks, ∀ w ∈ (p.old.map readings).sections,
      w = p.old ∨ w ∈ signContexts := by
    decide
  refine hall p hp w ?_
  rw [List.mem_sections, ← hw, List.map_map, List.forall₂_map_right_iff, List.forall₂_same]
  exact fun c _ => mem_readings c

/-- Where no sign stands in braces or behind `_`, the entries for these places find the same before
    and after the signs are plain. -/
theorem applyAll_signMarks_map (hs : ∀ w ∈ signContexts, ¬ w <:+: s) :
    applyAll signMarks (s.map plainSign) = (applyAll signMarks s).map plainSign := by
  have htable : ∀ p ∈ signMarks, (p.old.map plainSign = p.old ∧ p.new.map plainSign = p.new) ∧
      ∀ w ∈ signContexts, Spares w p.old p.new := by
    decide
  refine applyAll_comm (P := fun t => ∀ w ∈ signContexts, ¬ w <:+: t) ?_ hs
  intro p hp t ht
  obtain ⟨⟨hold, hnew⟩, hspares⟩ := htable p hp
  have hstep : p.apply (t.map plainSign) = (p.apply t).map plainSign := by
    refine apply_map ?_ hold hnew
    intro w hw hwp
    exact (eq_or_mem_signContexts hp hwp).resolve_right fun hmem => ht w hmem hw
  exact ⟨hstep, fun w hw => mt (isInfix_of_isInfix_apply (hspares w hw)) (ht w hw)⟩

/-- These entries leave none of their own marks. -/
theorem not_isInfix_signMarks (s : Text) : ∀ p ∈ signMarks, ¬ p.old <:+: applyAll signMarks s :=
  not_isInfix_applyAll (by decide +kernel) (by decide +kernel) s

/-- Up to the entries for the commands nothing puts a sign into braces or behind `_`, nor takes it
    from there. -/
theorem isInfix_signContext_iff {w : Text} (hw : w ∈ signContexts) (s : Text) :
    w <:+: applyAll (respellings ++ signCommands) s ↔ w <:+: s := by
  have htable : ∀ w ∈ signContexts, ∀ p ∈ respellings ++ signCommands,
      Spares w p.old p.new ∧ Spares w p.new p.old := by
    decide +kernel
  exact ⟨isInfix_of_isInfix_applyAll fun p hp => (htable w hw p hp).1,
    isInfix_applyAll fun p hp => (htable w hw p hp).2⟩

/-! ### Both spellings -/

/-- A text, when the signs in it are left for the last entries. -/
theorem unifySpellings_eq_map (s : Text) :
    unifySpellings s =
      (applyAll signMarks (applyAll (respellings ++ signCommands) s)).map plainSign := by
  rw [unifySpellings_eq, applyAll_signSymbols]

/-- A text with its signs written as commands: they are plain before the entries for a sign in
    braces or behind `_` come. -/
theorem unifySpellings_writeSigns (s : Text) :
    unifySpellings (writeSigns (command "pm") (command "mp") s) =
      applyAll signMarks ((applyAll (respellings ++ signCommands) s).map plainSign) := by
  have hcommands : applyAll (respellings ++ signCommands)
      (writeSigns (command "pm") (command "mp") s) =
        (applyAll (respellings ++ signCommands) s).map plainSign := by
    rw [applyAll_append, applyAll_append, applyAll_respellings_writeSigns,
      applyAll_signCommands_writeSigns, writeSigns_plain]
  have hnew : ∀ p ∈ signMarks, Avoids signChars p.new := by decide
  -- No sign as a character is left, so that the last entries have nothing to do.
  have hnone : Avoids signChars
      (applyAll signMarks ((applyAll (respellings ++ signCommands) s).map plainSign)) := by
    refine applyAll_induction (P := Avoids signChars) ?_ ?_
    · exact fun p hp _ => forall_mem_apply (hnew p hp)
    · intro c hc
      obtain ⟨d, -, rfl⟩ := List.mem_map.1 hc
      exact plainSign_not_mem d
  rw [unifySpellings_eq_map, hcommands, ← writeSigns_plain]
  exact writeSigns_eq_self hnone

/-- A text and the text with its signs written as commands end alike exactly if no sign as a
    character stands behind `_` or alone in braces. -/
theorem unifySpellings_writeSigns_iff (s : Text) :
    unifySpellings s = unifySpellings (writeSigns (command "pm") (command "mp") s) ↔
      ∀ w ∈ signContexts, ¬ w <:+: s := by
  rw [unifySpellings_eq_map, unifySpellings_writeSigns]
  constructor
  · intro heq w hw hws
    -- The sign stays where it is, and the entries for such a place would have left no plain one.
    have hmark : ∀ w ∈ signContexts, ∃ p ∈ signMarks, p.old = w.map plainSign := by decide
    have hkept : ∀ w ∈ signContexts, ∀ p ∈ signMarks, Spares w p.new p.old := by decide
    obtain ⟨p, hp, hold⟩ := hmark w hw
    have hlast : w <:+: applyAll signMarks (applyAll (respellings ++ signCommands) s) :=
      isInfix_applyAll (hkept w hw) ((isInfix_signContext_iff hw s).2 hws)
    have hplain := hlast.map plainSign
    rw [heq, ← hold] at hplain
    exact not_isInfix_signMarks _ p hp hplain
  · intro hs
    refine (applyAll_signMarks_map ?_).symm
    intro w hw
    rw [isInfix_signContext_iff hw s]
    exact hs w hw

/-- A sign behind `_` depends on its spelling. -/
theorem not_unifySpellings_writeSigns :
    ¬ ∀ s, unifySpellings s = unifySpellings (writeSigns (command "pm") (command "mp") s) := by
  intro h
  have hne : unifySpellings "q_±".toList ≠
      unifySpellings (writeSigns (command "pm") (command "mp") "q_±".toList) := by
    decide +kernel
  exact hne (h "q_±".toList)

end Text

end TidyTex
