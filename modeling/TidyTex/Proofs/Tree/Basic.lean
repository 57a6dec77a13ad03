import TidyTex.Proofs.Command
import TidyTex.Proofs.Nesting.Brace

/-! The tree of a text in which every backslash begins a command with a group behind it.

        item  ::=  character  |  { items }  |  \name{ items }

    Characters are neither backslashes nor braces, and names are ASCII letters. `print` writes a
    tree out. Its braces nest (`nests_print`), so the group behind a command is the one that the
    tree has there, and a command is found in the text only where the tree has one
    (`CommandName.spelling_eq_append`).

    `remove` is the removal of a command by recursion: each group of the command is deleted, or
    unwrapped after the command has been removed from it. -/

namespace TidyTex

open Text

/-- The name of a command: ASCII letters, at least one. -/
structure CommandName where
  letters : Text
  ne_nil : letters ≠ []
  all_isAlpha : letters.all Char.isAlpha = true
  deriving DecidableEq

/-- Whether a character stands for itself: it is neither a backslash nor a brace. -/
def isOrdinary (c : Char) : Bool := c != '\\' && c != '{' && c != '}'

/-- The items of a text, one after the other. -/
inductive TextTree where
  | nil
  | char (c : Char) (h : isOrdinary c = true) (rest : TextTree)
  | group (body rest : TextTree)
  | command (name : CommandName) (body rest : TextTree)
  deriving DecidableEq

/-! ### Names -/

namespace CommandName

/-- The name with its backslash. -/
def spelling (n : CommandName) : Text := '\\' :: n.letters

theorem spelling_ne_nil (n : CommandName) : n.spelling ≠ [] := List.cons_ne_nil _ _

theorem isAlpha_of_mem_letters (n : CommandName) : ∀ c ∈ n.letters, c.isAlpha = true :=
  List.all_eq_true.1 n.all_isAlpha

theorem isBrace_eq_false_of_mem_spelling (n : CommandName) :
    ∀ c ∈ n.spelling, isBrace c = false := by
  intro c hc
  rcases List.mem_cons.1 hc with rfl | hc
  · rfl
  · exact isBrace_eq_false_of_kind rfl rfl (n.isAlpha_of_mem_letters c hc)

/-- A command is spelled inside another one at its start only. -/
theorem spelling_eq_append {m n : CommandName} {a b : Text}
    (h : m.spelling = a ++ (n.spelling ++ b)) : a = [] ∧ m.letters = n.letters ++ b := by
  cases a with
  | nil => exact ⟨rfl, (List.cons.inj h).2⟩
  | cons c a =>
    have hmem : '\\' ∈ m.letters := by
      rw [(List.cons.inj h).2]
      exact List.mem_append_right a (List.mem_append_left b (List.mem_cons_self ..))
    exact absurd (m.isAlpha_of_mem_letters _ hmem) (by decide)

end CommandName

/-! ### Trees -/

namespace TextTree

/-- The text of a tree. -/
def print : TextTree → Text
  | nil => []
  | char c _ rest => c :: rest.print
  | group body rest => braced body.print ++ rest.print
  | command name body rest => name.spelling ++ (braced body.print ++ rest.print)

/-- The names of the commands of a tree. -/
def names : TextTree → List CommandName
  | nil => []
  | char _ _ rest => rest.names
  | group body rest => body.names ++ rest.names
  | command name body rest => name :: (body.names ++ rest.names)

/-- The items of two trees, one tree after the other. -/
def append : TextTree → TextTree → TextTree
  | nil, u => u
  | char c h rest, u => char c h (rest.append u)
  | group body rest, u => group body (rest.append u)
  | command name body rest, u => command name body (rest.append u)

theorem print_append (t u : TextTree) : (t.append u).print = t.print ++ u.print := by
  induction t with
  | nil => rfl
  | char c h rest ih => rw [append, print, ih, print, List.cons_append]
  | group body rest _ ih => rw [append, print, ih, print, List.append_assoc]
  | command name body rest _ ih =>
    rw [append, print, ih, print, List.append_assoc, List.append_assoc]

theorem append_assoc (t u v : TextTree) : (t.append u).append v = t.append (u.append v) := by
  induction t with
  | nil => rfl
  | char c h rest ih => rw [append, append, ih, append]
  | group body rest _ ih => rw [append, append, ih, append]
  | command name body rest _ ih => rw [append, append, ih, append]

theorem names_append (t u : TextTree) : (t.append u).names = t.names ++ u.names := by
  induction t with
  | nil => rfl
  | char c h rest ih => exact ih
  | group body rest _ ih => rw [append, names, ih, names, List.append_assoc]
  | command name body rest _ ih =>
    rw [append, names, ih, names, List.cons_append, List.append_assoc]

/-- The braces of a printed tree nest. -/
theorem nests_print (t : TextTree) : Nests isBrace t.print := by
  induction t with
  | nil => exact nests_nil
  | char c h rest ih =>
    have hc : isBrace c = false := isBrace_eq_false_of_kind rfl rfl h
    rw [print, Nests, openAfter_cons_of_not_seen hc]
    exact ih
  | group body rest ihBody ihRest => exact (nests_braced seesBraces_isBrace ihBody).append ihRest
  | command name body rest ihBody ihRest =>
    exact (nests_of_not_seen name.isBrace_eq_false_of_mem_spelling).append
      ((nests_braced seesBraces_isBrace ihBody).append ihRest)

/-- The command of a tree is found in its text. -/
theorem isInfix_print_of_mem_names {n : CommandName} {t : TextTree} (h : n ∈ t.names) :
    n.spelling <:+: t.print := by
  induction t with
  | nil => cases h
  | char c hc rest ih => exact List.infix_cons (ih h)
  | group body rest ihBody ihRest =>
    rcases List.mem_append.1 h with h | h
    · exact (ihBody h).trans ⟨['{'], '}' :: rest.print, by simp [print, braced]⟩
    · exact (ihRest h).trans (List.suffix_append _ _).isInfix
  | command name body rest ihBody ihRest =>
    rcases List.mem_cons.1 h with rfl | h
    · exact (List.prefix_append _ _).isInfix
    · rcases List.mem_append.1 h with h | h
      · exact (ihBody h).trans
          ⟨name.spelling ++ ['{'], '}' :: rest.print, by simp [print, braced]⟩
      · exact (ihRest h).trans
          ((List.suffix_append _ _).trans (List.suffix_append name.spelling _)).isInfix

/-! ### Removal by recursion -/

/-- What stays of the group of a removed command. -/
def kept : Removal → TextTree → TextTree
  | .delete, _ => nil
  | .unwrap, body => body

/-- A tree without the commands `n`, from the outside in. -/
def remove (r : Removal) (n : CommandName) : TextTree → TextTree
  | nil => nil
  | char c h rest => char c h (rest.remove r n)
  | group body rest => group (body.remove r n) (rest.remove r n)
  | command name body rest =>
    if name = n then (kept r (body.remove r n)).append (rest.remove r n)
    else command name (body.remove r n) (rest.remove r n)

theorem print_kept (r : Removal) (t : TextTree) : (kept r t).print = r.kept t.print := by
  cases r <;> rfl

theorem names_kept_subset (r : Removal) (t : TextTree) : (kept r t).names ⊆ t.names := by
  cases r with
  | delete => exact List.nil_subset _
  | unwrap => exact List.Subset.refl _

theorem remove_kept (r : Removal) (n : CommandName) (t : TextTree) :
    (kept r t).remove r n = kept r (t.remove r n) := by
  cases r <;> rfl

theorem remove_append (r : Removal) (n : CommandName) (t u : TextTree) :
    (t.append u).remove r n = (t.remove r n).append (u.remove r n) := by
  induction t with
  | nil => rfl
  | char c h rest ih => rw [append, remove, ih, remove, append]
  | group body rest _ ih => rw [append, remove, ih, remove, append]
  | command name body rest _ ih =>
    rw [append, remove, ih, remove]
    split
    · exact (append_assoc _ _ _).symm
    · rfl

/-- A tree without the command is left as it is. -/
theorem remove_eq_self {r : Removal} {n : CommandName} {t : TextTree} (h : n ∉ t.names) :
    t.remove r n = t := by
  induction t with
  | nil => rfl
  | char c hc rest ih => rw [remove, ih h]
  | group body rest ihBody ihRest =>
    rw [names, List.mem_append, not_or] at h
    rw [remove, ihBody h.1, ihRest h.2]
  | command name body rest ihBody ihRest =>
    rw [names, List.mem_cons, List.mem_append, not_or, not_or] at h
    rw [remove, if_neg (Ne.symm h.1), ihBody h.2.1, ihRest h.2.2]

end TextTree

end TidyTex
