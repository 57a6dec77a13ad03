import TidyTex.Proofs.Canonical.CommandName
import TidyTex.Proofs.Fraction.Shorthand

/-! How the arguments of a fraction in short are read.

    An argument is read as far as it goes: `read?_eq_some_iff` says which pieces of a text are read,
    and of a command it asks that no letter follows. A fraction has two arguments that are read one
    after the other, or one command that gives up its last letter (`arguments?_eq_some_iff`).

    Before and behind a pass the same arguments are read (`read?_of_read?_braceShorthand`). There is
    one exception. A fraction that is written in short, such as `\fracab`, begins with a longer
    name, and that is what is read there before the pass. -/

namespace TidyTex.Fraction

open Text

namespace Argument

/-- An argument is whole when it ends before `t`: the name of a command goes on with any letter. -/
def EndsBefore (a : Argument) (t : Text) : Prop :=
  ∀ letters, a = command letters → startsWithLetter t = false

theorem endsBefore_command {letters t : Text} :
    (command letters).EndsBefore t ↔ startsWithLetter t = false :=
  ⟨fun h => h letters rfl, fun h _ _ => h⟩

theorem endsBefore_of_read? {s t : Text} {a : Argument} (h : read? s = some (a, t)) :
    a.EndsBefore t := by
  rintro letters rfl
  unfold read? at h
  split at h
  · next s =>
    simp only at h
    split at h <;> cases h
    exact head?_after_run Char.isAlpha s
  · obtain ⟨_, _, h⟩ := Option.map_eq_some_iff.1 h
    cases h
  · split at h <;> cases h
  · cases h

/-- What is read is a piece of the text that is an argument and a whole one. -/
theorem read?_eq_some_iff {s t : Text} {a : Argument} :
    read? s = some (a, t) ↔ s = a.text ++ t ∧ a.WellFormed ∧ a.EndsBefore t := by
  constructor
  · intro h
    exact ⟨append_of_read? h, wellFormed_of_read? h, endsBefore_of_read? h⟩
  · rintro ⟨rfl, ha, ht⟩
    cases a with
    | command letters =>
      obtain ⟨hne, hletters⟩ := ha
      have hrun : run Char.isAlpha (letters ++ t) = ⟨letters, t⟩ :=
        run_append_of_head? hletters (endsBefore_command.1 ht)
      rw [text, List.cons_append, read?]
      simp only [hrun, if_neg hne]
    | single c =>
      have hkind : (isDecimalDigit c || c.isAlpha) = true := by simpa [WellFormed] using ha
      rw [text, List.singleton_append, read?, if_pos hkind]
      · rintro rfl; revert hkind; decide
      · rintro rfl; revert hkind; decide
    | group body =>
      have hbody : ∀ c ∈ body, (c != '{' && c != '}') = true := by
        intro c hc
        simpa [isBrace] using ha c hc
      have hrun : run (fun c => c != '{' && c != '}') (body ++ '}' :: t) = ⟨body, '}' :: t⟩ :=
        run_append_of_head? hbody rfl
      rw [text, braced_append, read?]
      simp only [hrun]
      rfl

theorem ne_backslash_of_wellFormed {c : Char} (h : (single c).WellFormed) : c ≠ '\\' := by
  have hmark : ¬ (isDecimalDigit '\\' = true ∨ '\\'.isAlpha = true) := by decide
  rintro rfl
  exact hmark h

/-- A group is read whatever follows it. -/
theorem read?_braced {x : Text} (hx : ∀ c ∈ x, isBrace c = false) (t : Text) :
    read? (braced x ++ t) = some (group x, t) :=
  read?_eq_some_iff.2 ⟨rfl, hx, nofun⟩

/-- A command gives up a letter if it has another one. -/
theorem shed?_eq_some_iff {a b c : Argument} :
    a.shed? = some (b, c) ↔
      ∃ letters last, letters ≠ [] ∧ a = command (letters ++ [last]) ∧ b = command letters ∧
        c = single last := by
  constructor
  · intro h
    unfold shed? at h
    split at h
    · next letters =>
      split at h
      · next last d rest hr =>
        cases h
        have hletters : letters = (d :: rest).reverse ++ [last] := by
          rw [← List.reverse_reverse letters, hr, List.reverse_cons]
        exact ⟨(d :: rest).reverse, last, by simp, congrArg command hletters, rfl, rfl⟩
      · cases h
    · cases h
  · rintro ⟨letters, last, hne, rfl, rfl, rfl⟩
    obtain ⟨d, rest, hr⟩ := List.exists_cons_of_ne_nil (mt List.reverse_eq_nil_iff.1 hne)
    have hletters : (d :: rest).reverse = letters := by rw [← hr, List.reverse_reverse]
    simp only [shed?, List.reverse_append, List.reverse_singleton, List.singleton_append, hr,
      hletters]

end Argument

/-- The text behind a fraction is a command, and no second argument follows it. The numerator is
    then the command without its last letter, which becomes the denominator. -/
structure CutShort (t : Text) (letters : Text) (last : Char) (rest : Text) : Prop where
  letters_ne_nil : letters ≠ []
  read : Argument.read? t = some (.command (letters ++ [last]), rest)
  alone : Argument.read? rest = none

/-- The arguments of a fraction are read one after the other, or come from one command. -/
theorem arguments?_eq_some_iff {t rest : Text} {a b : Argument} :
    arguments? t = some (a, b, rest) ↔
      (∃ u, Argument.read? t = some (a, u) ∧ Argument.read? u = some (b, rest)) ∨
        ∃ letters last, a = .command letters ∧ b = .single last ∧
          CutShort t letters last rest := by
  rw [arguments?, Option.bind_eq_some_iff]
  constructor
  · rintro ⟨⟨first, u⟩, hfirst, h⟩
    simp only at h
    split at h
    · next hsecond =>
      cases h
      exact Or.inl ⟨u, hfirst, hsecond⟩
    · next hnone =>
      obtain ⟨⟨a', b'⟩, hshed, he⟩ := Option.map_eq_some_iff.1 h
      cases he
      obtain ⟨letters, last, hne, rfl, rfl, rfl⟩ := Argument.shed?_eq_some_iff.1 hshed
      exact Or.inr ⟨letters, last, rfl, rfl, hne, hfirst, hnone⟩
  · rintro (⟨u, hfirst, hsecond⟩ | ⟨letters, last, rfl, rfl, hne, hfirst, hnone⟩)
    · exact ⟨(a, u), hfirst, by simp only [hsecond]⟩
    · have hshed := Argument.shed?_eq_some_iff.2 ⟨letters, last, hne, rfl, rfl, rfl⟩
      exact ⟨_, hfirst, by simp only [hnone, hshed, Option.map_some]⟩

/-! ### A pass and the text before it -/

/-- A fraction is written from a backslash on. -/
theorem fire?_cons_eq_none {c : Char} (hc : c ≠ '\\') (s : Text) :
    shorthandRule.fire? (c :: s) = none := by
  refine Rule.fire?_eq_none_of_not_isPrefix ?_
  intro hp
  exact hc (List.cons_prefix_cons.1 hp).1.symm

theorem braceShorthand_cons {c : Char} (hc : c ≠ '\\') (s : Text) :
    braceShorthand (c :: s) = c :: braceShorthand s :=
  Rule.pass_cons_of_fire? (fire?_cons_eq_none hc s)

theorem braceShorthand_append {x : Text} (hx : '\\' ∉ x) (s : Text) :
    braceShorthand (x ++ s) = x ++ braceShorthand s := by
  induction x with
  | nil => rfl
  | cons c x ih =>
    rw [List.mem_cons, not_or] at hx
    rw [List.cons_append, braceShorthand_cons (Ne.symm hx.1), ih hx.2, List.cons_append]

theorem isAlpha_of_mem_frac : ∀ c ∈ "frac".toList, c.isAlpha = true := List.all_eq_true.1 rfl

theorem not_mem_of_forall_isAlpha {x : Text} (hx : ∀ c ∈ x, c.isAlpha = true) : '\\' ∉ x :=
  fun hmem => absurd (hx _ hmem) (by decide)

theorem head?_braceShorthand (s : Text) : (braceShorthand s).head? = s.head? := by
  refine Rule.pass_induction (r := shorthandRule) (R := fun s t => t.head? = s.head?) rfl ?_ ?_ s
  · intros
    rfl
  · intro x y rest hw _
    obtain ⟨a, b, -, -, rfl, rfl⟩ := writes_shorthandRule hw
    rfl

theorem startsWithLetter_braceShorthand (s : Text) :
    startsWithLetter (braceShorthand s) = startsWithLetter s := by
  rw [startsWithLetter, head?_braceShorthand, startsWithLetter]

/-- The letters at the head of a text stay. -/
theorem before_run_braceShorthand (s : Text) :
    (run Char.isAlpha (braceShorthand s)).before = (run Char.isAlpha s).before := by
  have hletters : ∀ c ∈ (run Char.isAlpha s).before, c.isAlpha = true := fun _ => of_mem_before_run
  have hafter : startsWithLetter (braceShorthand (run Char.isAlpha s).after) = false := by
    rw [startsWithLetter_braceShorthand]
    exact head?_after_run Char.isAlpha s
  conv => lhs; rw [← run_append Char.isAlpha s,
    braceShorthand_append (not_mem_of_forall_isAlpha hletters)]
  rw [run_append_of_head? hletters hafter]

/-- The beginning of a pass was there before, if it holds no backslash. -/
theorem exists_of_braceShorthand_eq_append {x s t : Text} (hx : '\\' ∉ x)
    (h : braceShorthand s = x ++ t) : ∃ s', s = x ++ s' ∧ braceShorthand s' = t := by
  refine Rule.exists_of_pass_eq_append ?_ h
  rintro a b u y rfl hb hw hp
  obtain ⟨_, _, -, -, -, rfl⟩ := writes_shorthandRule hw
  obtain ⟨c, b, rfl⟩ := List.exists_cons_of_ne_nil hb
  obtain ⟨rfl, -⟩ := List.cons_prefix_cons.1 hp
  exact hx (List.mem_append_right a (List.mem_cons_self ..))

/-- No fraction is written where a closing brace comes before any opening one. -/
theorem not_isPrefix_of_closing {u y x t : Text} (hw : shorthandRule.Writes u y)
    (hx : ∀ c ∈ x, isBrace c = false) : ¬ y <+: x ++ '}' :: t := by
  obtain ⟨a, b, -, -, -, rfl⟩ := writes_shorthandRule hw
  rintro ⟨rest, hrest⟩
  have hopening : List.find? isBrace
      (command "frac" ++ (braced a.content ++ braced b.content) ++ rest) = some '{' := rfl
  have hclosing : List.find? isBrace (x ++ '}' :: t) = some '}' := by
    rw [List.find?_append, List.find?_eq_none.2 fun c hc => by simp [hx c hc]]
    rfl
  rw [hrest, hclosing] at hopening
  cases hopening

/-- A group at the head of a pass was there before. -/
theorem exists_of_braceShorthand_eq_braced_append {x s t : Text}
    (hx : ∀ c ∈ x, isBrace c = false) (h : braceShorthand s = braced x ++ t) :
    ∃ s', s = braced x ++ s' ∧ braceShorthand s' = t := by
  rw [braced_append] at h
  obtain ⟨s', rfl, hs'⟩ := exists_of_braceShorthand_eq_append (x := ['{']) (by decide) h
  have hend : braceShorthand s' = x ++ ['}'] ++ t := hs'.trans (List.append_cons x '}' t)
  obtain ⟨s'', rfl, hs''⟩ : ∃ s'', s' = x ++ ['}'] ++ s'' ∧ braceShorthand s'' = t := by
    refine Rule.exists_of_pass_eq_append ?_ hend
    intro a b u y hab hb hw
    obtain ⟨b, d, rfl⟩ := (List.eq_nil_or_concat b).resolve_left hb
    rw [List.concat_eq_append] at hab ⊢
    rw [← List.append_assoc] at hab
    obtain ⟨rfl, hd⟩ := List.append_inj' hab rfl
    cases hd
    rw [List.append_assoc]
    exact not_isPrefix_of_closing hw fun c hc => hx c (List.mem_append_right a hc)
  exact ⟨s'', by rw [braced_append]; simp, hs''⟩

/-- An argument at the head of a pass was there before, unless a fraction was. -/
theorem read?_of_read?_braceShorthand {s t : Text} {a : Argument}
    (h : Argument.read? (braceShorthand s) = some (a, t)) :
    (∃ s', Argument.read? s = some (a, s') ∧ braceShorthand s' = t) ∨ command "frac" <+: s := by
  obtain ⟨hs, ha, hend⟩ := Argument.read?_eq_some_iff.1 h
  cases a with
  | command letters =>
    have hletters : '\\' ∉ letters := not_mem_of_forall_isAlpha ha.2
    cases s with
    | nil => rw [braceShorthand, Rule.pass_nil] at hs; cases hs
    | cons c s =>
      cases hfire : shorthandRule.fire? (c :: s) with
      | some out =>
        obtain ⟨u, hu, -⟩ := Rule.fire?_eq_some_iff.1 hfire
        exact Or.inr ⟨u, hu.symm⟩
      | none =>
        rw [braceShorthand, Rule.pass_cons_of_fire? hfire] at hs
        obtain ⟨rfl, htail⟩ := List.cons.inj hs
        obtain ⟨s', rfl, rfl⟩ := exists_of_braceShorthand_eq_append hletters htail
        rw [Argument.endsBefore_command, startsWithLetter_braceShorthand] at hend
        exact Or.inl ⟨s', Argument.read?_eq_some_iff.2
          ⟨rfl, ha, Argument.endsBefore_command.2 hend⟩, rfl⟩
  | single c =>
    have hc : '\\' ∉ [c] := by
      rw [List.mem_singleton]
      exact (Argument.ne_backslash_of_wellFormed ha).symm
    obtain ⟨s', rfl, rfl⟩ := exists_of_braceShorthand_eq_append hc hs
    exact Or.inl ⟨s', Argument.read?_eq_some_iff.2 ⟨rfl, ha, nofun⟩, rfl⟩
  | group body =>
    obtain ⟨s', rfl, rfl⟩ := exists_of_braceShorthand_eq_braced_append ha hs
    exact Or.inl ⟨s', Argument.read?_braced ha s', rfl⟩

end TidyTex.Fraction
