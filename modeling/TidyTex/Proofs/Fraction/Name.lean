import Mathlib.Data.List.Forall2
import TidyTex.Proofs.Fraction.Reading

/-! What braces for a fraction do to the names of commands.

    A command that is read as an argument is read with its whole name, so in braces it is the
    command that it was. The one argument that is not read is a denominator that is missing. Then
    the last letter of the numerator stands in for it, and the name of the numerator is cut:

        \frac\pi4   ──▶  \frac{\pi}{4}
        \frac\pi+1  ──▶  \frac{\p}{i}+1

    The commands of a text and of its pass correspond one to one and in order, and a name that is
    not kept is the head of a fraction or was cut in this way (`names_braceShorthand`). -/

namespace TidyTex

namespace Text

/-! ### The commands of a text -/

/-- What stands behind the backslashes of a text, where that is the name of a command. -/
def commandTails : Text → List Text
  | [] => []
  | c :: s =>
    if c = '\\' ∧ (run Char.isAlpha s).before ≠ [] then s :: commandTails s else commandTails s

/-- A command is known by what stands behind its backslash, and its name is at the head of that. -/
theorem commandNames_eq (s : Text) :
    commandNames s = (commandTails s).map fun t => (run Char.isAlpha t).before := by
  induction s with
  | nil => rfl
  | cons c s ih =>
    rw [commandNames, commandTails, ih]
    split <;> rfl

theorem commandTails_cons {c : Char} (hc : c ≠ '\\') (s : Text) :
    commandTails (c :: s) = commandTails s := by
  rw [commandTails, if_neg fun h => hc h.1]

theorem commandNames_cons {c : Char} (hc : c ≠ '\\') (s : Text) :
    commandNames (c :: s) = commandNames s := by
  rw [commandNames_eq, commandTails_cons hc, commandNames_eq]

theorem commandTails_append {x : Text} (hx : '\\' ∉ x) (s : Text) :
    commandTails (x ++ s) = commandTails s := by
  induction x with
  | nil => rfl
  | cons c x ih =>
    rw [List.mem_cons, not_or] at hx
    rw [List.cons_append, commandTails_cons (Ne.symm hx.1), ih hx.2]

/-- Letters with no letter behind them are a run of letters of their own. -/
theorem before_run_append {s : Text} (h : startsWithLetter s = false) (x : Text) :
    (run Char.isAlpha (x ++ s)).before = (run Char.isAlpha x).before := by
  by_cases hx : ∀ c ∈ x, c.isAlpha = true
  · have hself : x.takeWhile Char.isAlpha = x := List.takeWhile_eq_self_iff.2 hx
    rw [run_append_of_head? hx h, run, hself]
  · exact before_run_append_of_not hx s

section
variable {letters : Text} (hne : letters ≠ []) (hletters : ∀ c ∈ letters, c.isAlpha = true)
include hne hletters

theorem commandTails_command (s : Text) :
    commandTails ('\\' :: (letters ++ s)) = (letters ++ s) :: commandTails s := by
  have hname : (run Char.isAlpha (letters ++ s)).before ≠ [] := by
    rw [run, List.takeWhile_append_of_pos hletters]
    exact List.append_ne_nil_of_left_ne_nil hne _
  rw [commandTails, if_pos ⟨rfl, hname⟩,
    commandTails_append (Fraction.not_mem_of_forall_isAlpha hletters)]

theorem commandNames_command {s : Text} (h : startsWithLetter s = false) :
    commandNames ('\\' :: (letters ++ s)) = letters :: commandNames s := by
  rw [commandNames_eq, commandTails_command hne hletters, List.map_cons,
    run_append_of_head? hletters h, ← commandNames_eq]

end

/-! ### The same commands in two texts

    `R` relates the commands of a text, one by one, to the names in another text. It relates each to
    the name that it has, so a piece that both texts hold can be put in front of them. -/

section
variable {R : Text → Text → Prop} (hR : ∀ t, R t (run Char.isAlpha t).before) {s t : Text}
include hR

theorem forall₂_names_cons (hname : (run Char.isAlpha t).before = (run Char.isAlpha s).before)
    (h : List.Forall₂ R (commandTails s) (commandNames t)) (c : Char) :
    List.Forall₂ R (commandTails (c :: s)) (commandNames (c :: t)) := by
  rw [commandTails, commandNames, hname]
  split
  · exact List.Forall₂.cons (hR s) h
  · exact h

theorem forall₂_names_append (hs : startsWithLetter s = false) (ht : startsWithLetter t = false)
    (h : List.Forall₂ R (commandTails s) (commandNames t)) (x : Text) :
    List.Forall₂ R (commandTails (x ++ s)) (commandNames (x ++ t)) := by
  induction x with
  | nil => exact h
  | cons c x ih =>
    refine forall₂_names_cons hR ?_ ih c
    rw [before_run_append hs, before_run_append ht]

end

end Text

open Text

namespace Fraction

/-- A whole argument keeps its commands when it gets braces. -/
theorem forall₂_names_argument {R : Text → Text → Prop}
    (hR : ∀ t, R t (run Char.isAlpha t).before) {a : Argument} (ha : a.WellFormed) {s t : Text}
    (hend : a.EndsBefore s) (h : List.Forall₂ R (commandTails s) (commandNames t)) :
    List.Forall₂ R (commandTails (a.text ++ s)) (commandNames (braced a.content ++ t)) := by
  have hclosing : ∀ u, commandNames ('}' :: u) = commandNames u := commandNames_cons (by decide)
  rw [braced_append, commandNames_cons (by decide)]
  rw [← hclosing] at h
  cases a with
  | command letters =>
    exact forall₂_names_append hR (Argument.endsBefore_command.1 hend) rfl h ('\\' :: letters)
  | single c =>
    have hc := Argument.ne_backslash_of_wellFormed ha
    have htails : commandTails ((Argument.single c).text ++ s) = commandTails s :=
      commandTails_cons hc s
    have hnames : commandNames ((Argument.single c).content ++ '}' :: t) =
        commandNames ('}' :: t) := commandNames_cons hc _
    rw [htails, hnames]
    exact h
  | group body =>
    rw [← commandTails_cons (c := '}') (by decide)] at h
    rw [Argument.text, braced_append, commandTails_cons (by decide)]
    exact forall₂_names_append hR rfl rfl h body

/-- What may become of a command when the fractions of a text get braces. The command is given by
    what stands behind its backslash, and what becomes of it by its name. -/
inductive Becomes (s : Text) : Text → Text → Prop
  | kept (t : Text) : Becomes s t (run Char.isAlpha t).before
  | head {t : Text} (h : shorthandRule.AppliesAt s (command "frac" ++ t)) :
      Becomes s ("frac".toList ++ t) "frac".toList
  | cut {t letters rest : Text} {last : Char}
      (h : shorthandRule.AppliesAt s (command "frac" ++ '\\' :: t))
      (hcut : CutShort ('\\' :: t) letters last rest) : Becomes s t letters

theorem Becomes.mono {s s' : Text}
    (h : ∀ t, shorthandRule.AppliesAt s t → shorthandRule.AppliesAt s' t) {t w : Text}
    (hb : Becomes s t w) : Becomes s' t w := by
  cases hb with
  | kept => exact Becomes.kept t
  | head hs => exact Becomes.head (h _ hs)
  | cut hs hcut => exact Becomes.cut (h _ hs) hcut

/-- At a fraction that is written in short, its own name and the names in both arguments are kept,
    unless the numerator is cut. -/
theorem forall₂_becomes_fraction {s t u : Text} {a b : Argument} {rest : Text}
    (hs : shorthandRule.AppliesAt s (command "frac" ++ t))
    (hargs : arguments? t = some (a, b, rest))
    (h : List.Forall₂ (Becomes s) (commandTails rest) (commandNames u)) :
    List.Forall₂ (Becomes s) (commandTails (command "frac" ++ t))
      (commandNames (command "frac" ++ (braced a.content ++ (braced b.content ++ u)))) := by
  have hne : "frac".toList ≠ [] := by decide
  have htails : commandTails (command "frac" ++ t) = ("frac".toList ++ t) :: commandTails t :=
    commandTails_command hne isAlpha_of_mem_frac t
  have hnames : ∀ v, commandNames (command "frac" ++ (braced a.content ++ v)) =
      "frac".toList :: commandNames (braced a.content ++ v) :=
    fun v => commandNames_command hne isAlpha_of_mem_frac rfl
  rw [htails, hnames]
  refine List.Forall₂.cons (Becomes.head hs) ?_
  obtain ⟨ha, hb⟩ := wellFormed_of_arguments? hargs
  rcases arguments?_eq_some_iff.1 hargs with ⟨v, hfirst, hsecond⟩ | ⟨letters, last, rfl, rfl, hcut⟩
  · obtain ⟨rfl, -, hendb⟩ := Argument.read?_eq_some_iff.1 hsecond
    obtain ⟨rfl, -, henda⟩ := Argument.read?_eq_some_iff.1 hfirst
    exact forall₂_names_argument Becomes.kept ha henda
      (forall₂_names_argument Becomes.kept hb hendb h)
  · obtain ⟨rfl, ⟨hlne, hletters⟩, -⟩ := Argument.read?_eq_some_iff.1 hcut.read
    have hcommand : ∀ c ∈ letters, c.isAlpha = true :=
      fun c hc => hletters c (List.mem_append_left [last] hc)
    have hlast : last ≠ '\\' := Argument.ne_backslash_of_wellFormed hb
    have htails : commandTails ((Argument.command (letters ++ [last])).text ++ rest) =
        (letters ++ [last] ++ rest) :: commandTails rest :=
      commandTails_command hlne hletters rest
    have hcontent : braced (Argument.command letters).content ++
        (braced (Argument.single last).content ++ u) =
          '{' :: '\\' :: (letters ++ '}' :: '{' :: last :: '}' :: u) := by
      simp [Argument.content, Argument.text, braced]
    have hnames : commandNames (braced (Argument.command letters).content ++
        (braced (Argument.single last).content ++ u)) = letters :: commandNames u := by
      rw [hcontent, commandNames_cons (by decide),
        commandNames_command hcut.letters_ne_nil hcommand rfl, commandNames_cons (by decide),
        commandNames_cons (by decide), commandNames_cons hlast, commandNames_cons (by decide)]
    rw [htails, hnames]
    exact List.Forall₂.cons (Becomes.cut hs hcut) h

/-- Each command of a text becomes one of its pass, and they come in the same order. -/
theorem forall₂_becomes (s : Text) :
    List.Forall₂ (Becomes s) (commandTails s) (commandNames (braceShorthand s)) := by
  refine Rule.reading_induction (r := shorthandRule)
    (P := fun s => List.Forall₂ (Becomes s) (commandTails s) (commandNames (braceShorthand s)))
    ?_ ?_ ?_ s
  · rw [braceShorthand, Rule.pass_nil]
    exact List.Forall₂.nil
  · intro c s hnone ih
    have hbehind : ∀ t w, Becomes s t w → Becomes (c :: s) t w :=
      fun _ _ => Becomes.mono fun _ => Rule.AppliesAt.keep hnone
    rw [braceShorthand, Rule.pass_cons_of_fire? hnone]
    exact forall₂_names_cons Becomes.kept (before_run_braceShorthand s) (ih.imp hbehind) c
  · intro s y rest hfire ih
    have hbehind : ∀ t w, Becomes rest t w → Becomes s t w :=
      fun _ _ => Becomes.mono fun _ => Rule.AppliesAt.write hfire
    have hhere := Rule.AppliesAt.here hfire
    rw [braceShorthand, Rule.pass_of_fire? hfire]
    obtain ⟨t, a, b, rfl, hargs, rfl⟩ := fire?_shorthandRule_eq_some_iff.1 hfire
    rw [Argument.inBraces_eq, Argument.inBraces_eq, List.append_assoc, List.append_assoc]
    exact forall₂_becomes_fraction hhere hargs (ih.imp hbehind)

/-- Of the two arguments of a fraction the second one is whole, and the first one is unless it was
    cut. -/
theorem endsBefore_of_arguments? {t : Text} {a b : Argument} {rest : Text}
    (h : arguments? t = some (a, b, rest)) :
    b.EndsBefore rest ∧
      (¬ a.EndsBefore (b.text ++ rest) ↔ ∃ letters last, CutShort t letters last rest) := by
  rcases arguments?_eq_some_iff.1 h with ⟨u, hfirst, hsecond⟩ | ⟨letters, last, rfl, rfl, hcut⟩
  · have hwhole := Argument.endsBefore_of_read? hfirst
    refine ⟨Argument.endsBefore_of_read? hsecond, iff_of_false ?_ ?_⟩
    · rw [← Argument.append_of_read? hsecond]
      exact not_not_intro hwhole
    · rintro ⟨letters, last, hcut⟩
      have hread := hcut.read
      rw [hfirst] at hread
      cases hread
      rw [hcut.alone] at hsecond
      cases hsecond
  · obtain ⟨-, ⟨-, hletters⟩, -⟩ := Argument.read?_eq_some_iff.1 hcut.read
    have hlast : last.isAlpha = true :=
      hletters last (List.mem_append_right letters (List.mem_singleton_self last))
    refine ⟨nofun, iff_of_true ?_ ⟨letters, last, hcut⟩⟩
    rw [Argument.endsBefore_command, Bool.not_eq_false]
    exact hlast

/-- A pass keeps the names of commands, but for numerators that it cuts. At each fraction that it
    comes to, the second argument is whole, and the first is cut exactly when no second one follows
    it. -/
theorem names_braceShorthand (s : Text) :
    (∀ t, shorthandRule.AppliesAt s t → ∃ u a b rest,
      t = command "frac" ++ u ∧ arguments? u = some (a, b, rest) ∧ b.EndsBefore rest ∧
        (¬ a.EndsBefore (b.text ++ rest) ↔ ∃ letters last, CutShort u letters last rest)) ∧
      List.Forall₂ (Becomes s) (commandTails s) (commandNames (braceShorthand s)) := by
  refine ⟨?_, forall₂_becomes s⟩
  intro t ht
  obtain ⟨y, rest, hfire⟩ := ht.exists_fire?
  obtain ⟨u, a, b, rfl, hargs, -⟩ := fire?_shorthandRule_eq_some_iff.1 hfire
  exact ⟨u, a, b, rest, rfl, hargs, endsBefore_of_arguments? hargs⟩

/-- In `\frac\pi+1` the numerator is read as `\p`, and a letter follows it. -/
theorem not_endsBefore_numerator :
    ¬ ∀ s u a b rest, shorthandRule.AppliesAt s (command "frac" ++ u) →
      arguments? u = some (a, b, rest) → a.EndsBefore (b.text ++ rest) := by
  intro h
  have hfire : shorthandRule.fire? "\\frac\\pi+1".toList =
      some (command "frac" ++ braced (command "p") ++ braced ['i'], "+1".toList) := by
    decide +kernel
  have hwhole := h _ "\\pi+1".toList (.command ['p']) (.single 'i') "+1".toList
    (Rule.AppliesAt.here hfire) (by decide +kernel)
  have hletter : startsWithLetter "i+1".toList = false := hwhole ['p'] rfl
  exact absurd hletter (by decide)

end Fraction

end TidyTex
