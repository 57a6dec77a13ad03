import TidyTex.Brace.Scope
import TidyTex.Proofs.Nesting.Brace
import TidyTex.Proofs.Nesting.Rewriting

/-! What a group holds.

    A group runs from its opening brace to the brace that closes it, or to the end of the text when
    none does. In terms of what is open, its content closes nothing that was opened before it, and
    where the group is closed it leaves nothing open either (`openAfter_before_groupBody`):

        { a { b } c } d        content  a { b } c        nothing open at its end
        { a { b } c { d        content  a { b } c { d    one brace open at its end

    Unwrapping a command in the content takes away both braces of an argument, or the opening brace
    of one that runs to the end of the text, and so keeps either property. What was the content of a
    group is the content of a group afterwards (`groupBody_removeCommand`). -/

namespace TidyTex.Text

open Delimiter

/-- Seen from further in, a group ends later. -/
theorem before_groupBody_isPrefix {m n : Nat} (h : m ≤ n) (s : Text) :
    (groupBody m s).before <+: (groupBody n s).before := by
  fun_induction groupBody m s generalizing n with
  | case1 => exact List.nil_prefix
  | case2 m s ih =>
    rw [groupBody]
    exact List.cons_prefix_cons.2 ⟨rfl, ih (Nat.succ_le_succ h)⟩
  | case3 s => exact List.nil_prefix
  | case4 m s ih =>
    obtain ⟨n, rfl⟩ := Nat.exists_eq_add_of_le' (Nat.lt_of_lt_of_le m.succ_pos h)
    rw [groupBody]
    exact List.cons_prefix_cons.2 ⟨rfl, ih (Nat.le_of_succ_le_succ h)⟩
  | case5 m c s ho hzero hsucc ih =>
    rw [groupBody_cons_of_not_brace ho (ne_closing hzero hsucc)]
    exact List.cons_prefix_cons.2 ⟨rfl, ih h⟩

/-- A group inside another one ends there. -/
theorem before_groupBody_isPrefix_of_group {depth : Nat} {x u r : Text}
    (h : groupBody depth (x ++ '{' :: (u ++ r)) = ⟨x ++ '{' :: u, r⟩) :
    (groupBody 0 (u ++ r)).before <+: u := by
  induction x generalizing depth with
  | nil =>
    rw [List.nil_append, groupBody, Cut.prepend, Cut.mk.injEq] at h
    have hu := before_groupBody_isPrefix (Nat.zero_le (depth + 1)) (u ++ r)
    rwa [List.append_cancel_left h.1] at hu
  | cons c x ih =>
    have hcons : ∀ {n}, (groupBody n (x ++ '{' :: (u ++ r))).prepend [c] =
        ⟨c :: (x ++ '{' :: u), r⟩ → (groupBody 0 (u ++ r)).before <+: u := by
      intro n hn
      cases hk : groupBody n (x ++ '{' :: (u ++ r))
      simp only [hk, Cut.prepend, List.singleton_append, Cut.mk.injEq, List.cons.injEq,
        true_and] at hn
      obtain ⟨rfl, rfl⟩ := hn
      exact ih hk
    by_cases ho : c = '{'
    · subst ho
      exact hcons h
    · by_cases hc : c = '}'
      · subst hc
        cases depth with
        | zero => cases h
        | succ depth => exact hcons h
      · rw [List.cons_append, groupBody_cons_of_not_brace ho hc] at h
        exact hcons h

/-- What a group holds closes nothing that was opened before it, and where the group is closed it
    leaves nothing open. -/
theorem openAfter_before_groupBody (n : Nat) (s : Text) :
    ∃ out, openAfter isBrace (List.replicate n .brace) (groupBody n s).before = some out ∧
      ((groupBody n s).after = [] ∨ out = []) := by
  fun_induction groupBody n s with
  | case1 n => exact ⟨_, rfl, Or.inl rfl⟩
  | case2 n s ih =>
    obtain ⟨out, hout, h⟩ := ih
    refine ⟨out, ?_, h⟩
    rw [Cut.before_prepend, List.singleton_append, openAfter_cons_of_opened? rfl (d := .brace) rfl]
    exact hout
  | case3 s => exact ⟨[], rfl, Or.inr rfl⟩
  | case4 n s ih =>
    obtain ⟨out, hout, h⟩ := ih
    refine ⟨out, ?_, h⟩
    rw [Cut.before_prepend, List.singleton_append, List.replicate_succ,
      openAfter_cons_of_closed? rfl rfl]
    exact hout
  | case5 n c s ho hzero hsucc ih =>
    obtain ⟨out, hout, h⟩ := ih
    refine ⟨out, ?_, h⟩
    have hc := isBrace_eq_false_iff.2 ⟨ho, ne_closing hzero hsucc⟩
    rw [Cut.before_prepend, List.singleton_append, openAfter_cons_of_not_seen hc]
    exact hout

/-- A text that closes nothing opened before it is the group itself. -/
theorem groupBody_eq_self {n : Nat} {s : Text}
    (h : (openAfter isBrace (List.replicate n .brace) s).isSome) : groupBody n s = ⟨s, []⟩ := by
  fun_induction groupBody n s with
  | case1 => rfl
  | case2 n s ih =>
    rw [openAfter_cons_of_opened? rfl (d := .brace) rfl] at h
    rw [ih h, Cut.prepend, List.singleton_append]
  | case3 s => cases h
  | case4 n s ih =>
    rw [List.replicate_succ, openAfter_cons_of_closed? rfl rfl] at h
    rw [ih h, Cut.prepend, List.singleton_append]
  | case5 n c s ho hzero hsucc ih =>
    have hc := isBrace_eq_false_iff.2 ⟨ho, ne_closing hzero hsucc⟩
    rw [openAfter_cons_of_not_seen hc] at h
    rw [ih h, Cut.prepend, List.singleton_append]

/-- Unwrapping a command without braces in its name closes nothing that was opened before the text,
    if the text did not. -/
theorem isSome_openAfter_removeCommand {m : Matching} {name s : Text} (hname : Nests isBrace name)
    (h : (openAfter isBrace [] s).isSome) :
    (openAfter isBrace [] (removeCommand m .unwrap name s)).isSome := by
  refine removeCommand_induction (P := fun t => (openAfter isBrace [] t).isSome) ?_ h
  intro k hk
  obtain ⟨out, hk⟩ := Option.isSome_iff_exists.1 hk
  rw [List.append_assoc] at hk
  obtain ⟨low, hbefore, hrest⟩ := openAfter_append_eq_some_iff.1 hk
  rw [openAfter_append, hname.openAfter, Option.bind_some] at hrest
  rw [openAfter_append, hbefore, Option.bind_some]
  rcases Removal.unwrap.remains_cases k.after with heq | ⟨t, ht, heq⟩
  · rw [heq, hrest, Option.isSome_some]
  · obtain ⟨mid, hmid, hend⟩ := openAfter_before_groupBody 0 t
    have hlow := openAfter_append_stack hmid low
    rw [List.replicate_zero, List.nil_append] at hlow
    rw [heq, Removal.kept, openAfter_append, hlow, Option.bind_some]
    rcases after_groupBody 0 t with hnil | ⟨u, hu⟩
    · rw [hnil, List.drop_nil, openAfter_nil, Option.isSome_some]
    · obtain rfl := hend.resolve_left (by simp [hu])
      have hx : Nests isBrace (groupBody 0 t).before := hmid
      rw [ht, ← groupBody_append 0 t, hu, openAfter_group seesBraces_isBrace hx] at hrest
      rw [hu, List.drop_one, List.tail_cons, List.nil_append, hrest, Option.isSome_some]

theorem head?_after_groupBody (depth : Nat) (s : Text) :
    ∀ c ∈ (groupBody depth s).after.head?, c = '}' := by
  rcases after_groupBody depth s with h | ⟨t, h⟩ <;> simp [h]

/-- A text that closes nothing opened before it, and leaves nothing open if the content of a group
    does not, is the content of a group in its place. -/
theorem groupBody_append_of_openAfter {t u r : Text} (hsome : (openAfter isBrace [] u).isSome)
    (hnests : Nests isBrace (groupBody 0 t).before → Nests isBrace u)
    (hr : r.head? = (groupBody 0 t).after.head?) : groupBody 0 (u ++ r) = ⟨u, r⟩ := by
  rcases after_groupBody 0 t with h | ⟨v, h⟩
  · obtain rfl : r = [] := by simpa [h] using hr
    rw [List.append_nil]
    exact groupBody_eq_self (n := 0) hsome
  · obtain ⟨out, hout, hend⟩ := openAfter_before_groupBody 0 t
    obtain rfl := hend.resolve_left (by simp [h])
    obtain ⟨w, rfl⟩ : ∃ w, r = '}' :: w := by
      rw [h, List.head?_cons, List.head?_eq_some_iff] at hr
      exact hr
    exact groupBody_of_openAfter seesBraces_isBrace (hnests hout) w

/-- A group goes on to end in the same way when a command is unwrapped in it. -/
theorem groupBody_removeCommand {m : Matching} {name : Text} (hname : Nests isBrace name)
    {t r : Text} (hr : r.head? = (groupBody 0 t).after.head?) :
    groupBody 0 (removeCommand m .unwrap name (groupBody 0 t).before ++ r) =
      ⟨removeCommand m .unwrap name (groupBody 0 t).before, r⟩ := by
  obtain ⟨out, hout, -⟩ := openAfter_before_groupBody 0 t
  exact groupBody_append_of_openAfter
    (isSome_openAfter_removeCommand hname (Option.isSome_of_eq_some hout))
    (nests_removeCommand seesBraces_isBrace hname) hr

end TidyTex.Text
