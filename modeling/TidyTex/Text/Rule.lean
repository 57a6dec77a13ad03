import TidyTex.Text.Basic

/-! Rules that change a text from left to right.

    A rule starts at a fixed head and may then read as much of the text as it likes. Each place that
    the rule applies to is replaced, and reading goes on behind what was read, so occurrences never
    overlap and what a rule has written is not read again. A rule that reads its head alone is a
    `Replacement`, and tables of replacements are applied one whole pass after the other.

    `pass_of_fire?` and `pass_cons_of_fire?` are the two equations by which a pass proceeds;
    `pass_eq_self` says that a pass changes nothing where the head does not occur. -/

namespace TidyTex

/-- What to do at an occurrence of a fixed, nonempty head. -/
structure Rule where
  /-- The text at which the rule may apply. -/
  head : Text
  /-- From what follows the head: the text to write, and the part that is left to read. -/
  body : Text → Option (Text × Text)
  head_ne_nil : head ≠ []
  body_suffix : ∀ {s out rest}, body s = some (out, rest) → rest <:+ s

namespace Rule

/-- What the rule writes at the start of a text and what it leaves, if it applies there. -/
def fire? (r : Rule) (s : Text) : Option (Text × Text) := (Text.after? r.head s).bind r.body

theorem fire?_eq_some_iff {r : Rule} {s out rest : Text} :
    r.fire? s = some (out, rest) ↔ ∃ t, s = r.head ++ t ∧ r.body t = some (out, rest) := by
  simp [fire?, Option.bind_eq_some_iff, Text.after?_eq_some_iff]

@[simp] theorem fire?_nil (r : Rule) : r.fire? [] = none := by
  match h : r.fire? [] with
  | none => rfl
  | some (out, rest) =>
    obtain ⟨t, ht, -⟩ := fire?_eq_some_iff.1 h
    exact absurd (List.append_eq_nil_iff.1 ht.symm).1 r.head_ne_nil

/-- Applying a rule uses up some of the text. -/
theorem length_lt_of_fire? {r : Rule} {s out rest : Text} (h : r.fire? s = some (out, rest)) :
    rest.length < s.length := by
  obtain ⟨t, rfl, ht⟩ := fire?_eq_some_iff.1 h
  have hle := (r.body_suffix ht).length_le
  have hpos := List.length_pos_iff.2 r.head_ne_nil
  rw [List.length_append]
  omega

/-- One pass of the rule over a text. -/
def pass (r : Rule) : Text → Text
  | [] => []
  | c :: s =>
    match _h : r.fire? (c :: s) with
    | some (out, rest) => out ++ r.pass rest
    | none => c :: r.pass s
termination_by s => s.length
decreasing_by
  · exact length_lt_of_fire? _h
  · exact Nat.lt_succ_self s.length

@[simp] theorem pass_nil (r : Rule) : r.pass [] = [] := by
  rw [pass]

/-- Where the rule applies, its output stands in place of what it read. -/
theorem pass_of_fire? {r : Rule} {s out rest : Text} (h : r.fire? s = some (out, rest)) :
    r.pass s = out ++ r.pass rest := by
  match s with
  | [] => simp at h
  | c :: s =>
    rw [pass]
    split
    · next h' => rw [h] at h'; cases h'; rfl
    · next h' => rw [h] at h'; cases h'

/-- Where the rule does not apply, one character is kept. -/
theorem pass_cons_of_fire? {r : Rule} {c : Char} {s : Text} (h : r.fire? (c :: s) = none) :
    r.pass (c :: s) = c :: r.pass s := by
  rw [pass]
  split
  · next h' => rw [h] at h'; cases h'
  · rfl

theorem fire?_eq_none_of_not_isPrefix {r : Rule} {s : Text} (h : ¬ r.head <+: s) :
    r.fire? s = none := by
  match hs : r.fire? s with
  | none => rfl
  | some (out, rest) =>
    obtain ⟨t, rfl, -⟩ := fire?_eq_some_iff.1 hs
    exact absurd (List.prefix_append r.head t) h

/-- A pass over a text without the head changes nothing. -/
theorem pass_eq_self {r : Rule} {s : Text} (h : ¬ r.head <:+: s) : r.pass s = s := by
  induction s with
  | nil => exact pass_nil r
  | cons c s ih =>
    rw [List.infix_cons_iff, not_or] at h
    rw [pass_cons_of_fire? (fire?_eq_none_of_not_isPrefix h.1), ih h.2]

end Rule

/-- One text to be written in place of another. -/
structure Replacement where
  old : Text
  new : Text
  old_ne_nil : old ≠ [] := by decide

namespace Replacement

/-- The rule that reads nothing but its head. -/
def rule (p : Replacement) : Rule where
  head := p.old
  body s := some (p.new, s)
  head_ne_nil := p.old_ne_nil
  body_suffix h := by cases h; exact List.suffix_rfl

/-- Writes the new text for every occurrence of the old one. -/
def apply (p : Replacement) (s : Text) : Text := p.rule.pass s

/-- Applies a table of replacements, one whole pass after the other. -/
def applyAll (table : List Replacement) (s : Text) : Text := table.foldl (fun t p => p.apply t) s

@[simp] theorem apply_nil (p : Replacement) : p.apply [] = [] := Rule.pass_nil _

/-- An occurrence at the head is replaced. -/
theorem apply_append (p : Replacement) (s : Text) : p.apply (p.old ++ s) = p.new ++ p.apply s :=
  Rule.pass_of_fire? (Rule.fire?_eq_some_iff.2 ⟨s, rfl, rfl⟩)

/-- A character at which the old text does not start is kept. -/
theorem apply_cons_of_not_isPrefix {p : Replacement} {c : Char} {s : Text}
    (h : ¬ p.old <+: c :: s) : p.apply (c :: s) = c :: p.apply s :=
  Rule.pass_cons_of_fire? (Rule.fire?_eq_none_of_not_isPrefix h)

theorem applyAll_cons (p : Replacement) (table : List Replacement) (s : Text) :
    applyAll (p :: table) s = applyAll table (p.apply s) := rfl

/-- One part of a table is applied after the other. -/
theorem applyAll_append (first last : List Replacement) (s : Text) :
    applyAll (first ++ last) s = applyAll last (applyAll first s) := List.foldl_append

end Replacement

end TidyTex
