import TidyTex.Text.Basic

/-! Groups with every brace counted, whether a backslash stands before it or not.

    A group that is never closed runs to the end of the text, so taking a group always succeeds:
    `groupBody_append` says that nothing is lost, and `after_groupBody` that what follows the group
    is its closing brace, or nothing. -/

namespace TidyTex

/-- The cut at the closing brace right behind a cut, if there is one. -/
def Cut.closed? (k : Cut) : Option Cut := (Text.after? ['}'] k.after).map (⟨k.before, ·⟩)

theorem Cut.closed?_prepend (p : Text) (k : Cut) :
    (k.prepend p).closed? = k.closed?.map (·.prepend p) := by
  rw [closed?, closed?, Option.map_map, after_prepend, before_prepend]
  rfl

theorem Cut.closed?_eq_some_iff {j k : Cut} :
    j.closed? = some k ↔ j = ⟨k.before, '}' :: k.after⟩ := by
  constructor
  · intro h
    obtain ⟨t, ht, rfl⟩ := Option.map_eq_some_iff.1 h
    have hafter : j.after = '}' :: t := Text.after?_eq_some_iff.1 ht
    rw [← hafter]
  · rintro rfl
    rfl

namespace Text

/-- The cut right before the brace that ends a group, seen from `depth` groups further in. -/
def groupBody : Nat → Text → Cut
  | _, [] => ⟨[], []⟩
  | depth, '{' :: s => (groupBody (depth + 1) s).prepend ['{']
  | 0, '}' :: s => ⟨[], '}' :: s⟩
  | depth + 1, '}' :: s => (groupBody depth s).prepend ['}']
  | depth, c :: s => (groupBody depth s).prepend [c]

theorem groupBody_append (depth : Nat) (s : Text) :
    (groupBody depth s).before ++ (groupBody depth s).after = s := by
  fun_induction groupBody depth s with
  | case1 | case3 => rfl
  | case2 _ _ ih | case4 _ _ ih | case5 _ _ _ _ _ _ ih => simpa using ih

theorem after_groupBody (depth : Nat) (s : Text) :
    (groupBody depth s).after = [] ∨ ∃ t, (groupBody depth s).after = '}' :: t := by
  fun_induction groupBody depth s with
  | case1 => exact Or.inl rfl
  | case3 s => exact Or.inr ⟨s, rfl⟩
  | case2 _ _ ih | case4 _ _ ih | case5 _ _ _ _ _ _ ih => simpa using ih

/-- The content of a group and the text behind its closing brace are a selection of the text. -/
theorem groupBody_sublist (depth : Nat) (s : Text) :
    ((groupBody depth s).before ++ (groupBody depth s).after.drop 1).Sublist s := by
  conv => rhs; rw [← groupBody_append depth s]
  exact (List.Sublist.refl _).append (List.drop_sublist 1 _)

/-- The offset of the brace that closes the group opened at offset `p`; none for a group that is
    never closed. The character at `p` itself is not looked at. -/
def groupEnd? (s : Text) (p : Nat) : Option Nat :=
  (cutAt? s (p + 1)).bind fun k =>
    (groupBody 0 k.after).closed?.map fun body => p + 1 + byteLength body.before

end Text

end TidyTex
