import TidyTex.Proofs.Nesting.Rewriting
import TidyTex.Proofs.Tree.Basic

/-! Removing a command from a text is removing it from the tree of the text.

    On the text, the first occurrence is taken out and the joined text is searched again. On the
    tree this is a step that takes one command out, wherever it stands (`Removes`):

        \name{ body } rest   ⟶   kept rest

    A step leaves a tree behind, with no other names than before (`Removes.names_subset`), from
    which the recursive removal makes the same as before the step (`Removes.remove_eq`). Every
    removal from the text is such a step (`exists_removes`), provided that the name is found in no
    longer one; so the text in which nothing is found any more is the text of the recursive removal
    (`removeCommand_print`). -/

namespace TidyTex

open Text

namespace TextTree

variable {r : Removal} {n : CommandName} {t u : TextTree}

/-! ### One command -/

/-- One command `n` is taken out of a tree. -/
inductive Removes (r : Removal) (n : CommandName) : TextTree → TextTree → Prop where
  | here (body rest : TextTree) : Removes r n (command n body rest) ((kept r body).append rest)
  | char (c : Char) (hc : isOrdinary c = true) {rest rest' : TextTree}
      (h : Removes r n rest rest') : Removes r n (char c hc rest) (char c hc rest')
  | groupBody {body body' : TextTree} (h : Removes r n body body') (rest : TextTree) :
      Removes r n (group body rest) (group body' rest)
  | groupRest (body : TextTree) {rest rest' : TextTree} (h : Removes r n rest rest') :
      Removes r n (group body rest) (group body rest')
  | argument (m : CommandName) {body body' : TextTree} (h : Removes r n body body')
      (rest : TextTree) : Removes r n (command m body rest) (command m body' rest)
  | commandRest (m : CommandName) (body : TextTree) {rest rest' : TextTree}
      (h : Removes r n rest rest') : Removes r n (command m body rest) (command m body rest')

/-- Whatever command is taken out first, removing all of them comes to the same. -/
theorem Removes.remove_eq (h : Removes r n t u) : u.remove r n = t.remove r n := by
  induction h with
  | here body rest => rw [remove_append, remove_kept, remove, if_pos rfl]
  | char c hc _ ih => rw [remove, ih, remove]
  | groupBody _ rest ih => rw [remove, ih, remove]
  | groupRest body _ ih => rw [remove, ih, remove]
  | argument m _ rest ih => rw [remove, ih, remove]
  | commandRest m body _ ih => rw [remove, ih, remove]

theorem Removes.names_subset (h : Removes r n t u) : u.names ⊆ t.names := by
  intro m hm
  induction h with
  | here body rest =>
    rw [names_append, List.mem_append] at hm
    rw [names, List.mem_cons, List.mem_append]
    exact Or.inr (hm.imp_left fun hbody => names_kept_subset r body hbody)
  | char c hc _ ih => exact ih hm
  | groupBody _ rest ih => exact List.mem_append.2 ((List.mem_append.1 hm).imp_left ih)
  | groupRest body _ ih => exact List.mem_append.2 ((List.mem_append.1 hm).imp_right ih)
  | argument name _ rest ih =>
    rw [names, List.mem_cons, List.mem_append] at hm ⊢
    exact hm.imp_right (Or.imp_left ih)
  | commandRest name body _ ih =>
    rw [names, List.mem_cons, List.mem_append] at hm ⊢
    exact hm.imp_right (Or.imp_right ih)

/-! ### One occurrence -/

/-- No command of a tree has a name that begins with `n` and runs on. -/
def Apart (n : CommandName) (t : TextTree) : Prop :=
  ∀ m ∈ t.names, m = n ∨ ¬ n.letters <+: m.letters

instance : Decidable (Apart n t) :=
  inferInstanceAs (Decidable (∀ m ∈ t.names, m = n ∨ ¬ n.letters <+: m.letters))

theorem Apart.of_subset (h : t.Apart n) (hsub : u.names ⊆ t.names) : u.Apart n :=
  fun m hm => h m (hsub hm)

/-- Where the name of a command occurs in the text of a tree, the tree has the command, with the
    group that follows there. What taking it out leaves is the text around that place and, between
    its two parts, what is kept of the group. -/
theorem exists_removes (r : Removal) (h : t.Apart n) {a b : Text}
    (hprint : t.print = a ++ (n.spelling ++ b)) :
    ∃ (body : TextTree) (c : Text) (u : TextTree), b = braced body.print ++ c ∧
      Removes r n t u ∧ u.print = a ++ (r.kept body.print ++ c) := by
  have hw := n.isBrace_eq_false_of_mem_spelling
  have hne := n.spelling_ne_nil
  -- The occurrence lies in one of the parts of the tree, and what is found there stays the same
  -- when the other parts are put around it.
  induction t generalizing a b with
  | nil => simp [print, hne] at hprint
  | char c hc rest ih =>
    cases a with
    | nil =>
      obtain rfl : c = '\\' := (List.cons.inj hprint).1
      cases hc
    | cons d a =>
      obtain ⟨rfl, hrest⟩ := List.cons.inj hprint
      obtain ⟨body, k, u, rfl, hu, huprint⟩ := ih h hrest
      exact ⟨body, k, char c hc u, rfl, .char c hc hu, congrArg (c :: ·) huprint⟩
  | group body rest ihBody ihRest =>
    have hbody : body.Apart n := h.of_subset (List.subset_append_left _ _)
    have hrest : rest.Apart n := h.of_subset (List.subset_append_right _ _)
    have hprint' : [] ++ (braced body.print ++ rest.print) = a ++ (n.spelling ++ b) := hprint
    rcases append_braced_cases hw hne hprint' with
      ⟨b', hnil, -⟩ | ⟨a', b', rfl, hin, rfl⟩ | ⟨a', rfl, hin⟩
    · simp [hne] at hnil
    · obtain ⟨inner, k, u, rfl, hu, huprint⟩ := ihBody hbody hin
      refine ⟨inner, k ++ '}' :: rest.print, group u rest, by simp, hu.groupBody rest, ?_⟩
      simp [print, braced_append, huprint]
    · obtain ⟨inner, k, u, rfl, hu, huprint⟩ := ihRest hrest hin
      refine ⟨inner, k, group body u, rfl, hu.groupRest body, ?_⟩
      simp [print, huprint]
  | command name body rest ihBody ihRest =>
    have hbody : body.Apart n :=
      h.of_subset (List.subset_cons_of_subset _ (List.subset_append_left _ _))
    have hrest : rest.Apart n :=
      h.of_subset (List.subset_cons_of_subset _ (List.subset_append_right _ _))
    rcases append_braced_cases hw hne hprint with
      ⟨b', hname, rfl⟩ | ⟨a', b', rfl, hin, rfl⟩ | ⟨a', rfl, hin⟩
    · -- The occurrence is at the name of this command, which cannot be a longer one.
      obtain ⟨rfl, hletters⟩ := CommandName.spelling_eq_append hname
      have heq : name = n :=
        (h name (List.mem_cons_self ..)).resolve_right (not_not_intro ⟨b', hletters.symm⟩)
      subst heq
      obtain rfl : b' = [] := by simpa using hletters
      exact ⟨body, rest.print, (kept r body).append rest, rfl, .here body rest,
        by rw [print_append, print_kept, List.nil_append]⟩
    · obtain ⟨inner, k, u, rfl, hu, huprint⟩ := ihBody hbody hin
      refine ⟨inner, k ++ '}' :: rest.print, command name u rest, by simp, hu.argument name rest,
        ?_⟩
      simp [print, braced_append, huprint]
    · obtain ⟨inner, k, u, rfl, hu, huprint⟩ := ihRest hrest hin
      refine ⟨inner, k, command name body u, rfl, hu.commandRest name body, ?_⟩
      simp [print, huprint]

/-! ### All occurrences -/

/-- Removing a command from the text of a tree, one occurrence after the other, gives the text of
    the tree without the command. -/
theorem removeCommand_print (r : Removal) {n : CommandName} {t : TextTree} (h : t.Apart n) :
    removeCommand .anywhere r n.spelling t.print = (t.remove r n).print := by
  -- At any time the text is that of a tree from which the recursion has the same to remove.
  have hinv : ∃ u : TextTree, u.print = removeCommand .anywhere r n.spelling t.print ∧
      u.Apart n ∧ u.remove r n = t.remove r n := by
    refine removeCommand_induction (P := fun s => ∃ u : TextTree, u.print = s ∧ u.Apart n ∧
      u.remove r n = t.remove r n) ?_ ⟨t, rfl, h, rfl⟩
    rintro ⟨a, b⟩ ⟨u, hprint, hu, hremove⟩
    rw [List.append_assoc] at hprint
    obtain ⟨body, c, v, rfl, hstep, hv⟩ := exists_removes r hu hprint
    refine ⟨v, ?_, hu.of_subset hstep.names_subset, hstep.remove_eq.trans hremove⟩
    rw [hv, r.remains_braced seesBraces_isBrace (nests_print body)]
  obtain ⟨u, hprint, -, hremove⟩ := hinv
  have hnot : n ∉ u.names := by
    intro hmem
    refine not_isInfix_removeCommand n.spelling_ne_nil (r := r) (s := t.print) ?_
    rw [← hprint]
    exact isInfix_print_of_mem_names hmem
  rw [← hprint, ← hremove, remove_eq_self hnot]

/-- In `\hat{a\bar{\hat{b}}}{c}` one `\hat` stands in the group of another. -/
theorem removeCommand_print_hat :
    ∃ (hat : CommandName) (t : TextTree), hat.spelling = TidyTex.command "hat" ∧
      t.print = "\\hat\x7ba\\bar\x7b\\hat{b}\x7d\x7d{c}".toList ∧ t.Apart hat ∧
      removeCommand .anywhere .unwrap hat.spelling t.print = "a\\bar{b}{c}".toList ∧
      removeCommand .anywhere .delete hat.spelling t.print = "{c}".toList := by
  let hat : CommandName := ⟨"hat".toList, by decide, rfl⟩
  let bar : CommandName := ⟨"bar".toList, by decide, rfl⟩
  let argument := char 'a' rfl (command bar (command hat (char 'b' rfl nil) nil) nil)
  let t := command hat argument (group (char 'c' rfl nil) nil)
  have h : t.Apart hat := by decide
  exact ⟨hat, t, by decide, by decide, h, removeCommand_print .unwrap h,
    removeCommand_print .delete h⟩

end TextTree

end TidyTex
