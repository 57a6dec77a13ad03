import TidyTex.Command

/-! What removing a command keeps.

    A removal takes the name out and, where a group follows it, the braces of that group; its
    content is `kept` or goes along (`remains_cases`). Removing a command everywhere repeats this,
    so what one removal keeps, all of them keep (`removeCommand_induction`). In particular only
    characters of the name and braces are lost when arguments are unwrapped
    (`filter_removeCommand_unwrap`), and nothing is written or moved (`removeCommand_sublist`). -/

namespace TidyTex

open Text

namespace Removal

/-- The part of an argument that stays in the text. -/
def kept : Removal → Text → Text
  | delete, _ => []
  | unwrap, body => body

theorem kept_sublist (r : Removal) (s : Text) : (r.kept s).Sublist s := by
  cases r with
  | delete => exact List.nil_sublist s
  | unwrap => exact List.Sublist.refl s

theorem remains_group (r : Removal) (t : Text) :
    r.remains ('{' :: t) = r.kept (groupBody 0 t).before ++ (groupBody 0 t).after.drop 1 := by
  cases r <;> rfl

/-- What remains behind a removed command: all of the text when no group follows, and else what is
    kept of the group and the text behind it. -/
theorem remains_cases (r : Removal) (s : Text) :
    r.remains s = s ∨ ∃ t, s = '{' :: t ∧
      r.remains s = r.kept (groupBody 0 t).before ++ (groupBody 0 t).after.drop 1 := by
  unfold remains
  split
  · next t => exact Or.inr ⟨t, rfl, rfl⟩
  · next t => exact Or.inr ⟨t, rfl, rfl⟩
  · exact Or.inl rfl

/-- Without a group behind it, a command leaves the whole rest of the text. -/
theorem remains_of_head?_ne (r : Removal) {s : Text} (h : s.head? ≠ some '{') :
    r.remains s = s := by
  rcases r.remains_cases s with hs | ⟨t, rfl, -⟩
  · exact hs
  · exact absurd rfl h

theorem remains_sublist (r : Removal) (s : Text) : (r.remains s).Sublist s := by
  rcases r.remains_cases s with h | ⟨t, rfl, h⟩
  · simpa only [h] using List.Sublist.refl s
  · have hkept := (r.kept_sublist (groupBody 0 t).before).append
      (List.Sublist.refl ((groupBody 0 t).after.drop 1))
    rw [h]
    exact List.Sublist.cons _ (hkept.trans (groupBody_sublist 0 t))

/-- Unwrapping loses no characters but braces. -/
theorem filter_remains_unwrap {p : Char → Bool} (ho : p '{' = false) (hc : p '}' = false)
    (s : Text) : (unwrap.remains s).filter p = s.filter p := by
  rcases unwrap.remains_cases s with h | ⟨t, rfl, h⟩
  · rw [h]
  · have happend := groupBody_append 0 t
    have hdrop : ((groupBody 0 t).after.drop 1).filter p = (groupBody 0 t).after.filter p := by
      rcases after_groupBody 0 t with hnil | ⟨u, hu⟩
      · rw [hnil, List.drop_nil]
      · rw [hu, List.drop_one, List.tail_cons, List.filter_cons_of_neg (by simp [hc])]
    rw [h, kept, List.filter_append, hdrop, ← List.filter_append, happend,
      List.filter_cons_of_neg (by simp [ho])]

end Removal

namespace Text

variable {m : Matching} {r : Removal} {name s : Text}

/-- A removal costs at least the bytes of the name. -/
theorem byteLength_removeOnce? {t : Text} (h : removeOnce? m r name s = some t) :
    byteLength t + byteLength name ≤ byteLength s := by
  obtain ⟨k, hk, rfl⟩ := Option.map_eq_some_iff.1 h
  have hs := congrArg byteLength (Matching.append_of_find? hk)
  have hle := byteLength_le_of_sublist (r.remains_sublist k.after)
  simp only [byteLength_append] at hs ⊢
  omega

/-- What every single removal keeps, removing a command everywhere keeps. -/
theorem removeCommand_induction {P : Text → Prop}
    (h : ∀ {k : Cut}, P (k.before ++ name ++ k.after) → P (k.before ++ r.remains k.after))
    (hs : P s) : P (removeCommand m r name s) := by
  unfold removeCommand
  split
  · exact hs
  · refine repeatAtMost_induction ?_ _ hs
    intro a b hab ha
    obtain ⟨k, hk, rfl⟩ := Option.map_eq_some_iff.1 hab
    rw [Matching.append_of_find? hk] at ha
    exact h ha

/-- Where a name does not occur, there is nothing to remove. -/
theorem removeCommand_eq_self (h : ¬ name <:+: s) : removeCommand m r name s = s := by
  unfold removeCommand
  split
  · rfl
  · have hnone : removeOnce? m r name s = none := by
      rw [removeOnce?, Option.map_eq_none_iff]
      cases hk : m.find? name s with
      | none => rfl
      | some k => exact absurd ⟨k.before, k.after, (Matching.append_of_find? hk).symm⟩ h
    rw [repeatAtMost_of_none hnone]

/-- A command that is removed wherever it occurs occurs no more. -/
theorem not_isInfix_removeCommand (hname : name ≠ []) :
    ¬ name <:+: removeCommand .anywhere r name s := by
  have hnone := find?_removeCommand (m := .anywhere) (r := r) (s := s) hname
  exact cutFirst?_eq_none_iff.1 hnone

/-- Removing a command everywhere goes on from what one removal leaves. -/
theorem removeCommand_of_removeOnce? {t : Text} (hname : name ≠ [])
    (h : removeOnce? m r name s = some t) :
    removeCommand m r name s = removeCommand m r name t := by
  have hpos := List.length_pos_iff.2 hname
  have hpaid : ∀ {a b : Text}, removeOnce? m r name a = some b → b.length < a.length := by
    intro a b hab
    have hlength := length_removeOnce? hab
    omega
  obtain ⟨n, hn⟩ := Nat.exists_eq_add_of_lt (hpaid h)
  rw [removeCommand, removeCommand, if_neg hname, if_neg hname, hn, repeatAtMost_succ_of_some h,
    repeatAtMost_of_measure List.length hpaid (Nat.le_add_right t.length n)]

/-- Removing a command leaves a selection of the characters, in their order. -/
theorem removeCommand_sublist : (removeCommand m r name s).Sublist s := by
  refine removeCommand_induction (P := fun t => t.Sublist s) ?_ (List.Sublist.refl s)
  intro k hk
  refine List.Sublist.trans ?_ hk
  rw [List.append_assoc]
  exact (List.Sublist.refl k.before).append
    ((r.remains_sublist k.after).trans (List.sublist_append_right name k.after))

/-- Unwrapping a command everywhere loses no characters but braces and those of the name. -/
theorem filter_removeCommand_unwrap {p : Char → Bool} (ho : p '{' = false) (hc : p '}' = false)
    (hname : name.filter p = []) :
    (removeCommand m .unwrap name s).filter p = s.filter p := by
  refine removeCommand_induction (P := fun t => t.filter p = s.filter p) ?_ rfl
  intro k hk
  rw [← hk, List.filter_append, Removal.filter_remains_unwrap ho hc, List.filter_append,
    List.filter_append, hname, List.append_nil]

end Text

end TidyTex
