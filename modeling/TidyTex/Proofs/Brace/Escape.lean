import Mathlib.Data.List.Chain
import TidyTex.Brace.Escape
import TidyTex.Brace.Scope
import TidyTex.Proofs.Command
import TidyTex.Proofs.Nesting.Brace
import TidyTex.Proofs.Rule

/-! Texts without literal braces.

    Which braces are literal is a matter of neighbours: a brace after a backslash. Once literal
    braces are parentheses none are left (`literalFree_literalBracesToParens`), and the scan that
    heeds backslashes closes a group where the count of braces does
    (`LiteralFree.scopeBody?_eq`). So it makes no difference which of the two a text is read with
    (`scansAgree_literalBracesToParens`).

    Removing a command brings new neighbours together and can make a literal brace out of the
    backslash in front of it. This cannot happen in a text where no backslash meets another one
    either (`escapeFree_removeCommand`):

        \\boxed{}{x}    ──▶    \{x}          the first backslash comes to stand at a brace -/

namespace TidyTex

namespace Replacement

/-- Writing one character for a pair leaves neighbours that are right, when all neighbours but that
    pair were right before and the new character goes with any other. -/
theorem isChain_apply_pair {a b c : Char} {R : Char → Char → Prop} (hleft : ∀ x, R x c)
    (hright : ∀ y, R c y) {s : Text} (hs : s.IsChain fun x y => x = a ∧ y = b ∨ R x y) :
    (apply ⟨[a, b], [c], List.cons_ne_nil _ _⟩ s).IsChain R := by
  -- Whether a kept character goes with the next one hangs on what that one was in the source, so
  -- the head of the output is followed along.
  have h : (s.IsChain fun x y => x = a ∧ y = b ∨ R x y) →
      (apply ⟨[a, b], [c], List.cons_ne_nil _ _⟩ s).IsChain R ∧
        ∀ y ∈ (apply ⟨[a, b], [c], List.cons_ne_nil _ _⟩ s).head?, y = c ∨ y ∈ s.head? := by
    refine Rule.pass_induction (R := fun s t => (s.IsChain fun x y => x = a ∧ y = b ∨ R x y) →
      t.IsChain R ∧ ∀ y ∈ t.head?, y = c ∨ y ∈ s.head?) ?_ ?_ ?_ s
    · exact fun _ => ⟨List.IsChain.nil, nofun⟩
    · intro x s hnone ih hs
      rw [List.isChain_cons] at hs
      obtain ⟨ht, hhead⟩ := ih hs.2
      refine ⟨List.isChain_cons.2 ⟨fun y hy => ?_, ht⟩, fun y hy => Or.inr hy⟩
      rcases hhead y hy with rfl | hys
      · exact hleft x
      · rcases hs.1 y hys with ⟨rfl, rfl⟩ | hR
        · obtain ⟨s, rfl⟩ := List.head?_eq_some_iff.1 hys
          exact absurd ⟨s, rfl⟩ (not_isPrefix_of_fire?_eq_none hnone)
        · exact hR
    · intro x y rest hw ih hs
      obtain ⟨rfl, rfl⟩ := writes_rule hw
      obtain ⟨ht, -⟩ := ih (List.isChain_append.1 hs).2.1
      refine ⟨List.isChain_cons.2 ⟨fun y _ => hright y, ht⟩, fun y hy => Or.inl ?_⟩
      exact (Option.some.inj hy).symm
  exact (h hs).1

end Replacement

namespace Text

/-- No brace of the text stands behind a backslash. -/
def LiteralFree (s : Text) : Prop := s.IsChain fun a b => a = '\\' → isBrace b = false

/-- No backslash of the text stands before a brace or before another backslash. -/
def EscapeFree (s : Text) : Prop :=
  s.IsChain fun a b => a = '\\' → b ≠ '\\' ∧ isBrace b = false

theorem EscapeFree.literalFree {s : Text} (h : EscapeFree s) : LiteralFree s :=
  h.imp fun _ _ hab ha => (hab ha).2

theorem LiteralFree.of_isInfix {s t : Text} (hs : LiteralFree s) (h : t <:+: s) : LiteralFree t :=
  List.IsChain.infix hs h

/-- With parentheses in place of literal braces, no literal brace is left. -/
theorem literalFree_literalBracesToParens (s : Text) : LiteralFree (literalBracesToParens s) := by
  have hopening : (Replacement.apply ⟨['\\', '{'], ['('], List.cons_ne_nil _ _⟩ s).IsChain
      fun a b => a = '\\' → b ≠ '{' := by
    refine Replacement.isChain_apply_pair (fun _ _ => by decide)
      (fun _ h => absurd h (by decide)) ?_
    rw [List.isChain_iff_forall_rel_of_append_cons_cons]
    intro x y _ _ _
    by_cases hpair : x = '\\' ∧ y = '{'
    · exact Or.inl hpair
    · exact Or.inr fun hx hy => hpair ⟨hx, hy⟩
  refine Replacement.isChain_apply_pair (a := '\\') (b := '}') (fun _ _ => rfl)
    (fun _ h => absurd h (by decide)) (hopening.imp fun x y h => ?_)
  by_cases hpair : x = '\\' ∧ y = '}'
  · exact Or.inl hpair
  · refine Or.inr fun hx => ?_
    rw [Bool.eq_false_iff]
    intro hbrace
    rcases isBrace_eq_true_iff.1 hbrace with rfl | rfl
    · exact h hx rfl
    · exact hpair ⟨hx, rfl⟩

/-- Without two backslashes in a row, a text without literal braces has no escapes at all. -/
theorem LiteralFree.escapeFree {s : Text} (hs : LiteralFree s) (h : ¬ ['\\', '\\'] <:+: s) :
    EscapeFree s := by
  rw [LiteralFree, List.isChain_iff_forall_rel_of_append_cons_cons] at hs
  rw [EscapeFree, List.isChain_iff_forall_rel_of_append_cons_cons]
  intro a b l r heq ha
  refine ⟨?_, hs heq ha⟩
  rintro rfl
  exact h ⟨l, r, by rw [heq, ha]; simp⟩

/-- Characters of some kind that were in a text and the two parentheses are all that is there with
    parentheses in place of literal braces. -/
theorem forall_mem_literalBracesToParens {P : Char → Prop} (ho : P '(') (hc : P ')') {s : Text}
    (hs : ∀ c ∈ s, P c) : ∀ c ∈ literalBracesToParens s, P c := by
  refine Replacement.applyAll_induction (P := fun t => ∀ c ∈ t, P c) ?_ hs
  intro p hp t ht
  refine Rule.forall_mem_pass ?_ ht
  intro x y hw _ c hcy
  obtain ⟨-, rfl⟩ := Replacement.writes_rule hw
  have hnew : ∀ p ∈ literalBraces, p.new = ['('] ∨ p.new = [')'] := by decide
  rcases hnew p hp with h | h
  · rw [h, List.mem_singleton] at hcy
    rw [hcy]
    exact ho
  · rw [h, List.mem_singleton] at hcy
    rw [hcy]
    exact hc

/-! ### Scopes and groups -/

/-- In a text without literal braces the scan that heeds backslashes closes a group where the count
    of braces closes it, and leaves it open where that does. -/
theorem LiteralFree.scopeBody?_eq {depth : Nat} {s : Text} (hs : LiteralFree s) :
    scopeBody? depth s = (groupBody depth s).closed? := by
  fun_induction scopeBody? depth s with
  | case1 depth c s ih =>
    obtain ⟨hc, hs'⟩ := List.isChain_cons_cons.1 hs
    obtain ⟨ho, hcl⟩ := isBrace_eq_false_iff.1 (hc rfl)
    rw [groupBody_cons_of_not_brace (by decide) (by decide), groupBody_cons_of_not_brace ho hcl,
      Cut.prepend_prepend, Cut.closed?_prepend, ih hs'.tail, List.singleton_append]
  | case2 depth s ih | case4 depth s ih => rw [groupBody, Cut.closed?_prepend, ih hs.tail]
  | case3 | case6 => rfl
  | case5 depth c s _ ho hclosing hclosing' ih =>
    have hcl := ne_closing hclosing hclosing'
    rw [groupBody_cons_of_not_brace ho hcl, Cut.closed?_prepend, ih hs.tail]

/-- So a scope is a group there. -/
theorem groupBody_of_scopeBody? {depth : Nat} {s : Text} {k : Cut} (hs : LiteralFree s)
    (h : scopeBody? depth s = some k) : groupBody depth s = ⟨k.before, '}' :: k.after⟩ := by
  rw [hs.scopeBody?_eq] at h
  exact Cut.closed?_eq_some_iff.1 h

/-- The first brace that is not escaped is then the first opening brace at all. -/
theorem LiteralFree.firstBrace?_eq {s : Text} (hs : LiteralFree s) :
    firstBrace? s = cutFirst? ['{'] s := by
  fun_induction firstBrace? s with
  | case1 c s ih =>
    obtain ⟨hc, hs'⟩ := List.isChain_cons_cons.1 hs
    obtain ⟨ho, -⟩ := isBrace_eq_false_iff.1 (hc rfl)
    rw [ih hs'.tail, cutFirst?_singleton_cons (by decide), cutFirst?_singleton_cons ho,
      Option.map_map]
    rfl
  | case2 s => rfl
  | case3 c s _ ho ih => rw [ih hs.tail, cutFirst?_singleton_cons ho]
  | case4 => rfl

/-- Scopes end where groups end. -/
theorem LiteralFree.closing_scopeAt? {s : Text} (hs : LiteralFree s) (p : Nat) :
    (scopeAt? s p).map Scope.closing = groupEnd? s p := by
  rw [scopeAt?, groupEnd?, Option.map_bind]
  refine Option.bind_congr fun k hk => ?_
  obtain ⟨hsplit, -⟩ := cutAt?_eq_some_iff.1 hk
  have hafter : LiteralFree k.after := hs.of_isInfix ⟨k.before, [], by rw [hsplit]; simp⟩
  rw [Function.comp_apply, hafter.scopeBody?_eq, Option.map_map]
  rfl

/-- In a balanced text every group is closed. -/
theorem groupEnd?_isSome_of_isBalanced {a b : Text} (h : isBalanced (a ++ '{' :: b) = true) :
    (groupEnd? (a ++ '{' :: b) (byteLength a)).isSome = true := by
  have hcut : cutAt? (a ++ '{' :: b) (byteLength a + 1) = some ⟨a ++ ['{'], b⟩ :=
    cutAt?_eq_some_iff.2 ⟨by simp, byteLength_append a ['{']⟩
  obtain ⟨low, -, hb⟩ := openAfter_append_eq_some_iff.1 (isBalanced_iff_nests.1 h)
  obtain ⟨x, t, -, hgroup, -⟩ := exists_group seesBraces_all hb (Nat.zero_le _)
  rw [groupEnd?, hcut, Option.bind_some, hgroup]
  rfl

/-- Whether it makes no difference in a text if backslashes are heeded: no brace stands behind one,
    the scan for the first brace that is not escaped finds the first of all, and each opening brace
    is closed where the count of braces closes it, which happens at least when the text is
    balanced. -/
structure ScansAgree (s : Text) : Prop where
  not_isInfix : ¬ ['\\', '{'] <:+: s ∧ ¬ ['\\', '}'] <:+: s
  firstBrace?_eq : firstBrace? s = cutFirst? ['{'] s
  closing_eq : ∀ a b, s = a ++ '{' :: b →
    (scopeAt? s (byteLength a)).map Scope.closing = groupEnd? s (byteLength a)
  isSome : isBalanced s = true → ∀ a b, s = a ++ '{' :: b →
    (scopeAt? s (byteLength a)).isSome = true ∧ (groupEnd? s (byteLength a)).isSome = true

theorem LiteralFree.scansAgree {s : Text} (hs : LiteralFree s) : ScansAgree s := by
  have hpair : ∀ c, isBrace c = true → ¬ ['\\', c] <:+: s := by
    rintro c hc ⟨a, b, rfl⟩
    rw [LiteralFree, List.isChain_iff_forall_rel_of_append_cons_cons] at hs
    have hfree := hs (List.append_assoc a ['\\', c] b) rfl
    rw [hc] at hfree
    cases hfree
  refine ⟨⟨hpair '{' rfl, hpair '}' rfl⟩, hs.firstBrace?_eq, fun _ _ _ => hs.closing_scopeAt? _, ?_⟩
  rintro hbalanced a b rfl
  have hend := groupEnd?_isSome_of_isBalanced hbalanced
  have hscope := hs.closing_scopeAt? (byteLength a)
  refine ⟨?_, hend⟩
  rw [← hscope, Option.isSome_map] at hend
  exact hend

/-- With parentheses in place of literal braces, the scans that heed backslashes and those that do
    not find the same. -/
theorem scansAgree_literalBracesToParens (s : Text) : ScansAgree (literalBracesToParens s) :=
  (literalFree_literalBracesToParens s).scansAgree

/-! ### Removed commands -/

/-- In front of a backslash or a brace there is no backslash. -/
theorem EscapeFree.ne_of_mem_getLast? {c : Char} {s t : Text} (h : EscapeFree (s ++ c :: t))
    (hc : c = '\\' ∨ isBrace c = true) : ∀ x ∈ s.getLast?, x ≠ '\\' := by
  rintro x hx rfl
  obtain ⟨hne, hbrace⟩ := (List.isChain_append.1 h).2.2 '\\' hx c rfl rfl
  rcases hc with rfl | hc
  · exact hne rfl
  · rw [hc] at hbrace
    cases hbrace

/-- Texts without escapes can be joined where the first does not end in a backslash. -/
theorem EscapeFree.append {s t : Text} (hs : EscapeFree s) (ht : EscapeFree t)
    (h : ∀ x ∈ s.getLast?, x ≠ '\\') : EscapeFree (s ++ t) :=
  List.IsChain.append hs ht fun x hx _ _ hxb => absurd hxb (h x hx)

theorem escapeFree_remains (r : Removal) {s : Text} (hs : EscapeFree s) :
    EscapeFree (r.remains s) := by
  rcases r.remains_cases s with heq | ⟨t, rfl, heq⟩
  · rw [heq]
    exact hs
  · have ht : EscapeFree ((groupBody 0 t).before ++ (groupBody 0 t).after) := by
      rw [groupBody_append]
      exact hs.tail
    have hkept : EscapeFree (r.kept (groupBody 0 t).before) := by
      cases r with
      | delete => exact List.IsChain.nil
      | unwrap => exact ht.left_of_append
    rw [heq]
    rcases after_groupBody 0 t with hnil | ⟨u, hu⟩
    · rw [hnil, List.drop_nil, List.append_nil]
      exact hkept
    · rw [hu] at ht ⊢
      refine hkept.append ht.right_of_append.tail ?_
      cases r with
      | delete => nofun
      | unwrap => exact ht.ne_of_mem_getLast? (Or.inr rfl)

/-- Removing a command brings no backslash before a brace or another backslash. -/
theorem escapeFree_removeCommand {m : Matching} {r : Removal} {name s : Text}
    (hs : EscapeFree s) : EscapeFree (removeCommand m r ('\\' :: name) s) := by
  refine removeCommand_induction (P := EscapeFree) ?_ hs
  intro k hk
  rw [List.append_assoc] at hk
  have hbefore : EscapeFree k.before := hk.left_of_append
  have hafter : EscapeFree k.after := hk.right_of_append.right_of_append
  exact hbefore.append (escapeFree_remains r hafter) (hk.ne_of_mem_getLast? (Or.inl rfl))

end Text

end TidyTex
