import TidyTex.Proofs.Vector

/-! Commands that own a group, and the braces put around the argument of a vector.

    An argument without braces may be a command, and that command is braced alone, whatever follows
    it. Where a group follows it, the command and its group come apart:

        \vec\bar x      ──▶   \vec{\bar} x       no group to lose
        \vec\bar{I}     ──▶   \vec{\bar}{I}      the group is lost to the vector

    So the number of times that a command stands before a group never grows, and it goes down
    exactly when the pass comes to a vector in front of such a command
    (`occurrences_braceBareArgument`). -/

namespace TidyTex.Vector

open Text

variable {name : Text}

/-- A command with the brace that opens its group. -/
def withGroup (name : Text) : Text := '\\' :: (name ++ ['{'])

/-- Whether a text begins with a vector that the command `name` and a group follow. -/
def PrecedesGroup (name t : Text) : Prop :=
  ∃ blanks rest : Text, (∀ c ∈ blanks, isBlank c = true) ∧
    t = command "vec" ++ (blanks ++ '\\' :: (name ++ '{' :: rest))

/-! ### The argument that is read -/

theorem head?_after_bareArgument? {s : Text} {k : Cut} (h : bareArgument? s = some k) :
    k.after.head?.any isBareLetter = false := by
  have hname : ∀ {p t : Text}, bareName? p t = some k → k.after.head?.any isBareLetter = false := by
    intro p t ht
    unfold bareName? at ht
    simp only at ht
    split at ht <;> cases ht
    exact head?_after_run isBareLetter t
  unfold bareArgument? at h
  split at h <;> exact hname h

/-- The argument of a vector in front of a command with a group is that command. -/
theorem bareArgument?_of_precedesGroup (hname : ∀ c ∈ name, isBareLetter c = true)
    {blanks rest : Text} (hblanks : ∀ c ∈ blanks, isBlank c = true) :
    bareArgument? (blanks ++ '\\' :: (name ++ '{' :: rest)) =
      if name = [] then none else some ⟨'\\' :: name, '{' :: rest⟩ := by
  have htrim : trimLeft (blanks ++ '\\' :: (name ++ '{' :: rest)) =
      '\\' :: (name ++ '{' :: rest) := by
    rw [trimLeft, List.dropWhile_append_of_pos hblanks, List.dropWhile_cons_of_neg (by decide)]
  have hrun : run isBareLetter (name ++ '{' :: rest) = ⟨name, '{' :: rest⟩ :=
    run_append_of_head? hname rfl
  rw [bareArgument?, htrim]
  simp [bareName?, hrun, Cut.prepend]

/-- A vector stands before a command with a group when that command is the argument that is read,
    and a brace is left behind it. -/
theorem precedesGroup_iff (hname : ∀ c ∈ name, isBareLetter c = true) {t argument rest : Text}
    (h : bareArgument? t = some ⟨argument, rest⟩) :
    PrecedesGroup name (command "vec" ++ t) ↔ argument = '\\' :: name ∧ rest.head? = some '{' := by
  constructor
  · rintro ⟨blanks, group, hblanks, ht⟩
    rw [List.append_cancel_left ht, bareArgument?_of_precedesGroup hname hblanks] at h
    split at h <;> cases h
    exact ⟨rfl, rfl⟩
  · rintro ⟨rfl, hrest⟩
    obtain ⟨group, rfl⟩ := List.head?_eq_some_iff.1 hrest
    obtain ⟨blanks, hblanks, -, rfl⟩ := append_of_bareArgument? h
    exact ⟨blanks, group, hblanks, by simp⟩

/-! ### Counting commands with a group -/

/-- A name and a brace begin a text exactly when its letters are that name and a brace is next. -/
theorem isPrefix_letters_iff {letters t : Text} (hname : ∀ c ∈ name, isBareLetter c = true)
    (hletters : ∀ c ∈ letters, isBareLetter c = true) (ht : t.head?.any isBareLetter = false) :
    name ++ ['{'] <+: letters ++ t ↔ letters = name ∧ t.head? = some '{' := by
  constructor
  · rintro ⟨u, hu⟩
    rw [List.append_assoc, List.singleton_append] at hu
    have hrun := congrArg (run isBareLetter) hu
    rw [run_append_of_head? hname rfl, run_append_of_head? hletters ht, Cut.mk.injEq] at hrun
    exact ⟨hrun.1.symm, by rw [← hrun.2]; rfl⟩
  · rintro ⟨rfl, hhead⟩
    obtain ⟨u, rfl⟩ := List.head?_eq_some_iff.1 hhead
    exact ⟨u, by simp⟩

/-- In an argument without braces there is at most one command, and it has a group if a brace
    follows. -/
theorem occurrences_bare (hname : ∀ c ∈ name, isBareLetter c = true) {argument t : Text}
    (hbare : Bare argument) (ht : t.head?.any isBareLetter = false) :
    occurrences (withGroup name) (argument ++ t) = occurrences (withGroup name) t +
      if argument = '\\' :: name ∧ t.head? = some '{' then 1 else 0 := by
  have hplain : ∀ {letters : Text}, (∀ c ∈ letters, isBareLetter c = true) → '\\' ∉ letters := by
    intro letters h hmem
    exact absurd (h _ hmem) (by decide)
  cases hbare with
  | letters _ hletters =>
    have hne : argument ≠ '\\' :: name := by
      rintro rfl
      exact hplain hletters List.mem_cons_self
    rw [withGroup, occurrences_append_of_not_mem (hplain hletters), if_neg (hne ·.1)]
    rfl
  | @command letters _ hletters =>
    have hiff := isPrefix_letters_iff hname hletters ht
    rw [withGroup, List.cons_append, occurrences_cons,
      occurrences_append_of_not_mem (hplain hletters)]
    simp [hiff]

/-- A command whose name does not begin like that of a vector does not stand where a vector does. -/
theorem occurrences_vec (hvec : ¬ "vec".toList <+: name) (t : Text) :
    occurrences (withGroup name) (command "vec" ++ t) = occurrences (withGroup name) t := by
  have hpre : ¬ withGroup name <+: '\\' :: ("vec".toList ++ t) := by
    intro h
    have h' : name ++ ['{'] <+: "vec".toList ++ t := (List.cons_prefix_cons.1 h).2
    rcases List.prefix_or_prefix_of_prefix h' (List.prefix_append _ t) with h | h
    · exact absurd (h.subset (List.mem_append_right name List.mem_cons_self)) (by decide)
    · exact hvec ((isPrefix_append_cons_iff (by decide)).1 h)
  have hplain : '\\' ∉ "vec".toList := by decide
  have hrest : occurrences (withGroup name) ("vec".toList ++ t) = occurrences (withGroup name) t :=
    occurrences_append_of_not_mem hplain t
  rw [command, List.cons_append, occurrences_cons, if_neg hpre, hrest, Nat.add_zero]

/-- Where a vector gets braces, what is read has a command with a group if the vector stands before
    one. -/
theorem occurrences_read (hname : ∀ c ∈ name, isBareLetter c = true)
    (hvec : ¬ "vec".toList <+: name) {t argument rest : Text}
    (h : bareArgument? t = some ⟨argument, rest⟩) :
    occurrences (withGroup name) (command "vec" ++ t) = occurrences (withGroup name) rest +
      if argument = '\\' :: name ∧ rest.head? = some '{' then 1 else 0 := by
  obtain ⟨blanks, hblanks, hbare, rfl⟩ := append_of_bareArgument? h
  have hplain : '\\' ∉ blanks := fun hmem => absurd (hblanks _ hmem) (by decide)
  rw [occurrences_vec hvec, withGroup, occurrences_append_of_not_mem hplain, ← withGroup,
    occurrences_bare hname hbare (head?_after_bareArgument? h)]

/-- What is written there has none. -/
theorem occurrences_write (hname : ∀ c ∈ name, isBareLetter c = true)
    (hvec : ¬ "vec".toList <+: name) {argument : Text} (hbare : Bare argument) (t : Text) :
    occurrences (withGroup name) (command "vec" ++ braced argument ++ t) =
      occurrences (withGroup name) t := by
  have hopening : ∀ u, occurrences (withGroup name) ('{' :: u) = occurrences (withGroup name) u :=
    fun _ => occurrences_cons_of_ne (by decide)
  have hclosing : occurrences (withGroup name) ('}' :: t) = occurrences (withGroup name) t :=
    occurrences_cons_of_ne (by decide)
  rw [List.append_assoc, occurrences_vec hvec, braced_append, hopening,
    occurrences_bare hname hbare rfl, hclosing]
  simp

/-- A kept character begins a command with a group behind the pass exactly when it did before. -/
theorem withGroup_isPrefix_iff (hname : ∀ c ∈ name, isBareLetter c = true) (c : Char) (s : Text) :
    withGroup name <+: c :: braceBareArgument s ↔ withGroup name <+: c :: s := by
  have hplain : '\\' ∉ name ++ ['{'] := by
    intro hmem
    rcases List.mem_append.1 hmem with h | h
    · exact absurd (hname _ h) (by decide)
    · exact absurd h (by decide)
  have hwrites : ∀ {x y : Text}, bareArgumentRule.Writes x y → y.head? = some '\\' := by
    intro x y hw
    obtain ⟨-, argument, -, -, -, rfl⟩ := writes_bareArgumentRule hw
    rfl
  rw [withGroup, List.cons_prefix_cons, List.cons_prefix_cons, braceBareArgument,
    Rule.isPrefix_pass_iff hplain rfl hwrites]

/-! ### What the pass loses -/

/-- Bracing the arguments of vectors never makes up a command with a group, and it loses one exactly
    when it comes to a vector that stands before that command and its group. -/
theorem occurrences_braceBareArgument (hname : ∀ c ∈ name, c.isAlpha = true)
    (hvec : ¬ "vec".toList <+: name) (s : Text) :
    occurrences (withGroup name) (braceBareArgument s) ≤ occurrences (withGroup name) s ∧
      (occurrences (withGroup name) s ≤ occurrences (withGroup name) (braceBareArgument s) ↔
        ∀ t, bareArgumentRule.AppliesAt s t → ¬ PrecedesGroup name t) := by
  have hbare : ∀ c ∈ name, isBareLetter c = true := fun c hc => by simp [isBareLetter, hname c hc]
  refine Rule.reading_induction (r := bareArgumentRule)
    (P := fun s => occurrences (withGroup name) (braceBareArgument s) ≤
        occurrences (withGroup name) s ∧
      (occurrences (withGroup name) s ≤ occurrences (withGroup name) (braceBareArgument s) ↔
        ∀ t, bareArgumentRule.AppliesAt s t → ¬ PrecedesGroup name t)) ?_ ?_ ?_ s
  · rw [braceBareArgument, Rule.pass_nil]
    exact ⟨Nat.le_refl _, iff_of_true (Nat.le_refl _) fun t ht => absurd ht Rule.not_appliesAt_nil⟩
  · rintro c s hnone ⟨hle, hiff⟩
    have hkept : braceBareArgument (c :: s) = c :: braceBareArgument s :=
      Rule.pass_cons_of_fire? hnone
    simp only [Rule.appliesAt_cons_iff hnone, ← hiff]
    rw [hkept, occurrences_cons, occurrences_cons _ c s]
    simp only [withGroup_isPrefix_iff hbare]
    omega
  · rintro s y rest hfire ⟨hle, hiff⟩
    have hwritten : braceBareArgument s = y ++ braceBareArgument rest := Rule.pass_of_fire? hfire
    simp only [Rule.appliesAt_iff_of_fire? hfire, forall_eq_or_imp, ← hiff]
    obtain ⟨t, argument, rfl, ht, rfl⟩ := fire?_bareArgumentRule_eq_some_iff.1 hfire
    obtain ⟨-, -, hargument, -⟩ := append_of_bareArgument? ht
    rw [hwritten, occurrences_write hbare hvec hargument, occurrences_read hbare hvec ht,
      precedesGroup_iff hbare ht]
    split
    · next hlost => exact ⟨by omega, iff_of_false (by omega) fun h => h.1 hlost⟩
    · next hnone => exact ⟨hle, (and_iff_right hnone).symm⟩

/-- The first `\bar` in `\vec\bar x\bar{y}` has no group, and the second one keeps its own. -/
theorem occurrences_braceBareArgument_bar :
    (∀ c ∈ "bar".toList, c.isAlpha = true) ∧ ¬ "vec".toList <+: "bar".toList ∧
      occurrences (withGroup "bar".toList) "\\vec\\bar x\\bar{y}".toList = 1 ∧
      occurrences (withGroup "bar".toList) (braceBareArgument "\\vec\\bar x\\bar{y}".toList) = 1 ∧
      ∀ t, bareArgumentRule.AppliesAt "\\vec\\bar x\\bar{y}".toList t →
        ¬ PrecedesGroup "bar".toList t := by
  have hname : ∀ c ∈ "bar".toList, c.isAlpha = true := List.all_eq_true.1 rfl
  have hvec : ¬ "vec".toList <+: "bar".toList := by decide
  have hfire : bareArgumentRule.fire? "\\vec\\bar x\\bar{y}".toList =
      some ("\\vec\x7b\\bar\x7d".toList, " x\\bar{y}".toList) := by decide +kernel
  have hrest : bareArgumentRule.pass " x\\bar{y}".toList = " x\\bar{y}".toList :=
    Rule.pass_eq_self (by decide +kernel)
  have hbefore : occurrences (withGroup "bar".toList) "\\vec\\bar x\\bar{y}".toList = 1 := by decide
  have hafter : occurrences (withGroup "bar".toList)
      (braceBareArgument "\\vec\\bar x\\bar{y}".toList) = 1 := by
    rw [braceBareArgument, Rule.pass_of_fire? hfire, hrest]
    decide
  have hkept := (occurrences_braceBareArgument hname hvec "\\vec\\bar x\\bar{y}".toList).2.1
  exact ⟨hname, hvec, hbefore, hafter, hkept (Nat.le_of_eq (hbefore.trans hafter.symm))⟩

/-- `\vec\bar{I}` becomes `\vec{\bar}{I}`. -/
theorem not_occurrences_le_braceBareArgument :
    ¬ ∀ name s : Text, (∀ c ∈ name, c.isAlpha = true) → ¬ "vec".toList <+: name →
      occurrences (withGroup name) s ≤ occurrences (withGroup name) (braceBareArgument s) := by
  intro h
  have hfire : bareArgumentRule.fire? "\\vec\\bar{I}".toList =
      some ("\\vec\x7b\\bar\x7d".toList, "{I}".toList) := by decide +kernel
  have hrest : bareArgumentRule.pass "{I}".toList = "{I}".toList :=
    Rule.pass_eq_self (by decide +kernel)
  have hle := h "bar".toList "\\vec\\bar{I}".toList (List.all_eq_true.1 rfl) (by decide)
  rw [braceBareArgument, Rule.pass_of_fire? hfire, hrest] at hle
  exact absurd hle (by decide)

end TidyTex.Vector
