import TidyTex.Proofs.Fraction.Reading

/-! One pass over the fractions in short is enough.

    Where no fraction is written, the text behind may change all the same, so a fraction could come
    up there for a second pass. It does not: what can be read as arguments behind a pass could be
    read before (`isSome_arguments?_of_braceShorthand`). The one piece that is read otherwise is a
    fraction that was written in short, and as the first argument of another fraction it is one
    command of many letters, which always does for both:

        \frac\fracab  ──▶  \frac{\fraca}{b}

    So a second pass comes to those fractions only that the first one has written, and leaves them
    (`braceShorthand_settled`). -/

namespace TidyTex.Fraction

open Text

theorem isSome_arguments?_iff {t : Text} :
    (arguments? t).isSome ↔ ∃ a u, Argument.read? t = some (a, u) ∧
      ((Argument.read? u).isSome ∨ ∃ letters last, letters ≠ [] ∧
        a = .command (letters ++ [last])) := by
  rw [Option.isSome_iff_exists]
  constructor
  · rintro ⟨⟨a, b, rest⟩, h⟩
    rcases arguments?_eq_some_iff.1 h with ⟨u, hfirst, hsecond⟩ | ⟨letters, last, -, -, hcut⟩
    · exact ⟨a, u, hfirst, Or.inl (Option.isSome_of_eq_some hsecond)⟩
    · exact ⟨_, rest, hcut.read, Or.inr ⟨letters, last, hcut.letters_ne_nil, rfl⟩⟩
  · rintro ⟨a, u, hfirst, h⟩
    cases hsecond : Argument.read? u with
    | some out => exact ⟨_, arguments?_eq_some_iff.2 (Or.inl ⟨u, hfirst, hsecond⟩)⟩
    | none =>
      rw [hsecond] at h
      obtain ⟨letters, last, hne, rfl⟩ := h.resolve_left (by decide)
      exact ⟨_, arguments?_eq_some_iff.2 (Or.inr ⟨letters, last, rfl, rfl, hne, hfirst, hsecond⟩)⟩

/-- At a fraction a command is read, and it has more letters than one. -/
theorem read?_command_frac (t : Text) :
    ∃ letters last u, letters ≠ [] ∧
      Argument.read? (command "frac" ++ t) = some (.command (letters ++ [last]), u) := by
  have hname : ∃ letters last, letters ≠ [] ∧
      "frac".toList ++ (run Char.isAlpha t).before = letters ++ [last] := by
    rcases List.eq_nil_or_concat (run Char.isAlpha t).before with hnil | ⟨letters, last, hconcat⟩
    · exact ⟨"fra".toList, 'c', by decide, by rw [hnil]; rfl⟩
    · refine ⟨"frac".toList ++ letters, last, by simp, ?_⟩
      rw [hconcat, List.concat_eq_append, List.append_assoc]
  obtain ⟨letters, last, hne, hname⟩ := hname
  refine ⟨letters, last, (run Char.isAlpha t).after, hne, ?_⟩
  rw [← hname, Argument.read?_eq_some_iff, Argument.endsBefore_command]
  refine ⟨?_, ⟨List.cons_ne_nil _ _, ?_⟩, head?_after_run Char.isAlpha t⟩
  · conv => lhs; rw [← run_append Char.isAlpha t]
    simp [command, Argument.text]
  · rw [List.forall_mem_append]
    exact ⟨isAlpha_of_mem_frac, fun _ => of_mem_before_run⟩

/-- Behind a pass there is no argument where there was none before. -/
theorem isSome_read?_of_braceShorthand {s : Text}
    (h : (Argument.read? (braceShorthand s)).isSome) : (Argument.read? s).isSome := by
  obtain ⟨⟨a, t⟩, h⟩ := Option.isSome_iff_exists.1 h
  rcases read?_of_read?_braceShorthand h with ⟨s', hs, -⟩ | ⟨t, rfl⟩
  · exact Option.isSome_of_eq_some hs
  · obtain ⟨_, _, _, -, hread⟩ := read?_command_frac t
    exact Option.isSome_of_eq_some hread

/-- Behind a pass there are no two arguments where there were none before. -/
theorem isSome_arguments?_of_braceShorthand {s : Text}
    (h : (arguments? (braceShorthand s)).isSome) : (arguments? s).isSome := by
  rw [isSome_arguments?_iff] at h ⊢
  obtain ⟨a, t, hread, h⟩ := h
  rcases read?_of_read?_braceShorthand hread with ⟨s', hs, rfl⟩ | ⟨t, rfl⟩
  · exact ⟨a, s', hs, h.imp_left isSome_read?_of_braceShorthand⟩
  · obtain ⟨letters, last, u, hne, hs⟩ := read?_command_frac t
    exact ⟨_, u, hs, Or.inr ⟨letters, last, hne, rfl⟩⟩

/-- Where no fraction is written, a pass over the text behind makes none. -/
theorem fire?_cons_braceShorthand {c : Char} {s : Text}
    (h : shorthandRule.fire? (c :: s) = none) :
    shorthandRule.fire? (c :: braceShorthand s) = none := by
  rw [Option.eq_none_iff_forall_not_mem] at h ⊢
  rintro ⟨y, rest⟩ hmem
  obtain ⟨t, a, b, ht, hargs, -⟩ := fire?_shorthandRule_eq_some_iff.1 hmem
  obtain ⟨rfl, hs⟩ := List.cons.inj ht
  obtain ⟨s, rfl, rfl⟩ := exists_of_braceShorthand_eq_append (by decide) hs
  obtain ⟨⟨a, b, rest⟩, hargs⟩ := Option.isSome_iff_exists.1
    (isSome_arguments?_of_braceShorthand (Option.isSome_of_eq_some hargs))
  exact h _ (fire?_shorthandRule_eq_some_iff.2 ⟨s, a, b, rfl, hargs, rfl⟩)

theorem arguments?_braced {x y : Text} (hx : ∀ c ∈ x, isBrace c = false)
    (hy : ∀ c ∈ y, isBrace c = false) (t : Text) :
    arguments? (braced x ++ (braced y ++ t)) = some (.group x, .group y, t) :=
  arguments?_eq_some_iff.2 (Or.inl ⟨_, Argument.read?_braced hx _, Argument.read?_braced hy t⟩)

/-- A fraction that has been written is written again as it is. -/
theorem fire?_of_writes_shorthandRule {x y : Text} (h : shorthandRule.Writes x y) (t : Text) :
    shorthandRule.fire? (y ++ t) = some (y, t) := by
  obtain ⟨a, b, ha, hb, -, rfl⟩ := writes_shorthandRule h
  refine fire?_shorthandRule_eq_some_iff.2 ⟨_, .group a.content, .group b.content, ?_,
    arguments?_braced (Argument.isBrace_eq_false_of_mem_content ha)
      (Argument.isBrace_eq_false_of_mem_content hb) t, ?_⟩
  · rw [List.append_assoc, List.append_assoc]
  · rw [Argument.inBraces_eq, Argument.inBraces_eq, List.append_assoc]
    rfl

/-- A second pass changes nothing, and at each fraction that it comes to, both arguments are groups
    already. -/
theorem braceShorthand_settled (s : Text) :
    braceShorthand (braceShorthand s) = braceShorthand s ∧
      ∀ t, shorthandRule.AppliesAt (braceShorthand s) t →
        ∃ u x y rest, t = command "frac" ++ u ∧
          arguments? u = some (.group x, .group y, rest) := by
  refine ⟨Rule.pass_pass fire?_cons_braceShorthand fire?_of_writes_shorthandRule s, ?_⟩
  intro t ht
  obtain ⟨x, y, rest, hw, rfl⟩ := Rule.exists_writes_of_appliesAt_pass fire?_cons_braceShorthand
    fire?_of_writes_shorthandRule ht
  obtain ⟨a, b, ha, hb, -, rfl⟩ := writes_shorthandRule hw
  refine ⟨_, a.content, b.content, rest, List.append_assoc .., ?_⟩
  rw [List.append_assoc]
  exact arguments?_braced (Argument.isBrace_eq_false_of_mem_content ha)
    (Argument.isBrace_eq_false_of_mem_content hb) rest

end TidyTex.Fraction
