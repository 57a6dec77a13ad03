import TidyTex.Brace.Escape
import TidyTex.Brace.Owner
import TidyTex.Brace.Scope
import TidyTex.Repeat

/-! Redundant outer braces.

    The first group of a text is redundant when nothing owns it and no brace closes after it. It is
    then the whole point of the text, and what stands around it is dropped with its braces. -/

namespace TidyTex.Text

/-- The content of the first group, when that group is redundant. -/
def stripOuter? (s : Text) : Option Text := do
  let opening ← firstBrace? s
  guard (owner? opening.before).isNone
  let body ← scopeBody? 0 opening.after
  guard ('}' ∉ body.after)
  return body.before

/-- Strips redundant groups, at most `limit` of them, and counts them. -/
def stripOuters (limit : Nat) (s : Text) : Text × Nat := repeatAtMost stripOuter? limit s

theorem guard_eq_some_iff {p : Prop} [Decidable p] {u : Unit} :
    (guard p : Option Unit) = some u ↔ p := by
  by_cases h : p
  · exact iff_of_true (if_pos h) h
  · have hnone : (guard p : Option Unit) = none := if_neg h
    rw [hnone]
    exact iff_of_false nofun h

/-- A strip returns the content of a group that nothing owns and no closing brace follows. -/
theorem stripOuter?_eq_some_iff {s t : Text} :
    stripOuter? s = some t ↔ ∃ k body, firstBrace? s = some k ∧ owner? k.before = none ∧
      scopeBody? 0 k.after = some body ∧ '}' ∉ body.after ∧ body.before = t := by
  constructor
  · intro h
    obtain ⟨k, hk, h⟩ := Option.bind_eq_some_iff.1 h
    obtain ⟨_, howner, h⟩ := Option.bind_eq_some_iff.1 h
    obtain ⟨body, hbody, h⟩ := Option.bind_eq_some_iff.1 h
    obtain ⟨_, hafter, h⟩ := Option.bind_eq_some_iff.1 h
    exact ⟨k, body, hk, Option.isNone_iff_eq_none.1 (guard_eq_some_iff.1 howner), hbody,
      guard_eq_some_iff.1 hafter, Option.some.inj h⟩
  · rintro ⟨k, body, hk, howner, hbody, hafter, rfl⟩
    have hnone := guard_eq_some_iff (u := ()).2 (Option.isNone_iff_eq_none.2 howner)
    have hlast := guard_eq_some_iff (u := ()).2 hafter
    exact Option.bind_eq_some_iff.2 ⟨k, hk, Option.bind_eq_some_iff.2 ⟨(), hnone,
      Option.bind_eq_some_iff.2 ⟨body, hbody, Option.bind_eq_some_iff.2 ⟨(), hlast, rfl⟩⟩⟩⟩

/-- A strip leaves a contiguous part of the text and gives up the braces around it. -/
theorem append_of_stripOuter? {s t : Text} (h : stripOuter? s = some t) :
    ∃ a b, s = a ++ '{' :: (t ++ '}' :: b) := by
  obtain ⟨k, body, hk, -, hbody, -, rfl⟩ := stripOuter?_eq_some_iff.1 h
  exact ⟨k.before, body.after, by rw [append_of_firstBrace? hk, ← append_of_scopeBody? hbody]⟩

end TidyTex.Text
