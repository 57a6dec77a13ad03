import Mathlib.Data.List.TakeWhile
import Mathlib.Logic.Relation
import TidyTex.Canonical
import TidyTex.Proofs.Command
import TidyTex.Proofs.Rule

/-! The names of commands while markup is taken out.

    A command name is all the letters behind a backslash, so what stands behind a command can change
    its name. Commands of style and marks are taken out of a text piece by piece, and nothing is put
    in their place. If a letter comes up behind a command in that way, the two run together:

        \pi\,r     ──▶    \pir               \pi \,r    ──▶    \pi r
        \pi\hat r  ──▶    \pi r              \pi\hat{r} ──▶    \pir

    There is no other way for a name to come up that the text did not have (`mem_commandNames_cut`),
    so each new name goes back to a place where a piece was taken out right behind a command
    (`mem_commandNames_stripped`). -/

namespace TidyTex

namespace Text

/-! ### Names -/

/-- The names of the commands of a text: all the letters behind a backslash, at least one. -/
def commandNames : Text → List Text
  | [] => []
  | c :: s =>
    let name := (run Char.isAlpha s).before
    if c = '\\' ∧ name ≠ [] then name :: commandNames s else commandNames s

theorem mem_commandNames_cons {w : Text} {c : Char} {s : Text} :
    w ∈ commandNames (c :: s) ↔
      c = '\\' ∧ w ≠ [] ∧ w = (run Char.isAlpha s).before ∨ w ∈ commandNames s := by
  rw [commandNames]
  split
  · next h =>
    rw [List.mem_cons]
    constructor
    · rintro (rfl | hw)
      · exact Or.inl ⟨h.1, h.2, rfl⟩
      · exact Or.inr hw
    · rintro (⟨-, -, hw⟩ | hw)
      · exact Or.inl hw
      · exact Or.inr hw
  · next h =>
    constructor
    · exact Or.inr
    · rintro (⟨hc, hne, rfl⟩ | hw)
      · exact absurd ⟨hc, hne⟩ h
      · exact hw

theorem mem_commandNames_iff {w s : Text} :
    w ∈ commandNames s ↔
      w ≠ [] ∧ ∃ a b, s = a ++ '\\' :: b ∧ w = (run Char.isAlpha b).before := by
  induction s with
  | nil => simp [commandNames]
  | cons c s ih =>
    rw [mem_commandNames_cons, ih]
    constructor
    · rintro (⟨rfl, hw, h⟩ | ⟨hw, a, b, rfl, h⟩)
      · exact ⟨hw, [], s, rfl, h⟩
      · exact ⟨hw, c :: a, b, rfl, h⟩
    · rintro ⟨hw, _ | ⟨d, a⟩, b, hs, h⟩
      · obtain ⟨rfl, rfl⟩ := List.cons.inj hs
        exact Or.inl ⟨rfl, hw, h⟩
      · obtain ⟨rfl, rfl⟩ := List.cons.inj hs
        exact Or.inr ⟨hw, a, b, rfl, h⟩

/-- A command in letters occurs in a text where the name of a command begins with its letters. -/
theorem isInfix_command_iff {l s : Text} (hne : l ≠ []) (hl : ∀ c ∈ l, c.isAlpha = true) :
    '\\' :: l <:+: s ↔ ∃ w ∈ commandNames s, l <+: w := by
  constructor
  · rintro ⟨a, b, rfl⟩
    have hrun : (run Char.isAlpha (l ++ b)).before = l ++ (run Char.isAlpha b).before :=
      List.takeWhile_append_of_pos hl
    have hname : l ++ (run Char.isAlpha b).before ≠ [] := List.append_ne_nil_of_left_ne_nil hne _
    exact ⟨_, mem_commandNames_iff.2 ⟨hname, a, l ++ b, by simp, hrun.symm⟩, List.prefix_append _ _⟩
  · rintro ⟨w, hw, hlw⟩
    obtain ⟨-, a, b, rfl, rfl⟩ := mem_commandNames_iff.1 hw
    obtain ⟨t, ht⟩ := hlw.trans (List.takeWhile_prefix Char.isAlpha)
    exact ⟨a, t, by simp [← ht]⟩

/-- Whether a text starts with a letter. -/
def startsWithLetter (s : Text) : Bool := s.head?.any Char.isAlpha

theorem before_run_eq_nil {s : Text} (h : startsWithLetter s = false) :
    (run Char.isAlpha s).before = [] := by
  cases s with
  | nil => rfl
  | cons c s =>
    have hc : c.isAlpha = false := h
    rw [run, List.takeWhile_cons_of_neg (by simp [hc])]

/-- A run that ends inside a text does not see what follows the text. -/
theorem before_run_append_of_not {p : Char → Bool} {s : Text} (h : ¬ ∀ c ∈ s, p c = true)
    (t : Text) : (run p (s ++ t)).before = (run p s).before := by
  have hlen : ¬ (s.takeWhile p).length = s.length := by
    intro heq
    have hself := (List.takeWhile_prefix p (l := s)).eq_of_length heq
    exact h (List.takeWhile_eq_self_iff.1 hself)
  rw [run, List.takeWhile_append, if_neg hlen, run]

/-- The letters behind a place stay the same when `p` is taken out further on, unless they reach the
    place where `p` was and a letter was or is there. -/
theorem before_run_cut (s p b : Text) :
    (run Char.isAlpha (s ++ b)).before = (run Char.isAlpha (s ++ (p ++ b))).before ∨
      (∀ c ∈ s, c.isAlpha = true) ∧ (startsWithLetter p = true ∨ startsWithLetter b = true) ∧
        (run Char.isAlpha (s ++ b)).before = s ++ (run Char.isAlpha b).before := by
  by_cases hall : ∀ c ∈ s, c.isAlpha = true
  · have hrun : ∀ t, (run Char.isAlpha (s ++ t)).before = s ++ (run Char.isAlpha t).before :=
      fun _ => List.takeWhile_append_of_pos hall
    by_cases hletter : startsWithLetter p = true ∨ startsWithLetter b = true
    · exact Or.inr ⟨hall, hletter, hrun b⟩
    · rw [not_or, Bool.not_eq_true, Bool.not_eq_true] at hletter
      have hboth : startsWithLetter (p ++ b) = false := by
        cases p with
        | nil => exact hletter.2
        | cons c p => exact hletter.1
      rw [hrun, hrun, before_run_eq_nil hletter.2, before_run_eq_nil hboth]
      exact Or.inl rfl
  · rw [before_run_append_of_not hall, before_run_append_of_not hall]
    exact Or.inl rfl

/-- The name `w` comes up when `p` is taken out from between `a` and `b`: the command at the end of
    `a` loses letters to `p`, or gains those at the start of `b`. -/
def Fuses (a p b w : Text) : Prop :=
  ∃ l name, a = l ++ '\\' :: name ∧ (∀ c ∈ name, c.isAlpha = true) ∧
    (startsWithLetter p = true ∨ startsWithLetter b = true) ∧
    w = name ++ (run Char.isAlpha b).before

/-- When a part is taken out of a text, the names are those that the text had, but for one that
    comes up where the part was. -/
theorem mem_commandNames_cut {a p b w : Text} (h : w ∈ commandNames (a ++ b)) :
    w ∈ commandNames (a ++ p ++ b) ∨ Fuses a p b w := by
  obtain ⟨hne, x, t, hsplit, rfl⟩ := mem_commandNames_iff.1 h
  rcases List.append_eq_append_iff.1 hsplit with ⟨u, rfl, rfl⟩ | ⟨u, rfl, hu⟩
  · exact Or.inl (mem_commandNames_iff.2 ⟨hne, a ++ p ++ u, t, by simp, rfl⟩)
  · cases u with
    | nil =>
      rw [List.nil_append] at hu
      exact Or.inl (mem_commandNames_iff.2 ⟨hne, x ++ p, t, by simp [hu], rfl⟩)
    | cons c name =>
      rw [List.cons_append, List.cons.injEq] at hu
      obtain ⟨rfl, rfl⟩ := hu
      rcases before_run_cut name p b with hrun | ⟨hall, hletter, hrun⟩
      · rw [hrun] at hne ⊢
        exact Or.inl (mem_commandNames_iff.2 ⟨hne, x, name ++ (p ++ b), by simp, rfl⟩)
      · exact Or.inr ⟨x, name, rfl, hall, hletter, hrun⟩

end Text

open Text

/-! ### Markup -/

/-- The part `p` of the text `a ++ p ++ b` is a piece of markup. An argument that stays loses its
    closing brace first, and then its opening one along with the command. -/
inductive Markup : Text → Text → Text → Prop
  | mark {q : Replacement} (h : q ∈ cosmeticDeletions) (a b : Text) : Markup a q.old b
  | command {name b : Text} (h : name ∈ deletedCommands ++ unwrappedCommands)
      (hb : b.head? ≠ some '{') (a : Text) : Markup a name b
  | argument {name : Text} (h : name ∈ deletedCommands) (a t : Text) :
      Markup a (name ++ '{' :: ((groupBody 0 t).before ++ (groupBody 0 t).after.take 1))
        ((groupBody 0 t).after.drop 1)
  | closing {name body rest : Text} (h : name ∈ unwrappedCommands)
      (hbody : groupBody 0 (body ++ '}' :: rest) = ⟨body, '}' :: rest⟩) (a : Text) :
      Markup (a ++ name ++ '{' :: body) ['}'] rest
  | opening {name : Text} (h : name ∈ unwrappedCommands) (a b : Text) :
      Markup a (name ++ ['{']) b

/-- One piece of markup is taken out of a text. -/
def Strip (s t : Text) : Prop := ∃ a p b, Markup a p b ∧ s = a ++ p ++ b ∧ t = a ++ b

/-- Pieces of markup are taken out of a text, one after the other. -/
def Strips : Text → Text → Prop := Relation.ReflTransGen Strip

theorem Markup.strips {a p b : Text} (h : Markup a p b) : Strips (a ++ p ++ b) (a ++ b) :=
  Relation.ReflTransGen.single ⟨a, p, b, h, rfl, rfl⟩

theorem strips_delete {name : Text} (h : name ∈ deletedCommands) (a s : Text) :
    Strips (a ++ name ++ s) (a ++ Removal.delete.remains s) := by
  by_cases hs : s.head? = some '{'
  · obtain ⟨t, rfl⟩ := List.head?_eq_some_iff.1 hs
    have hstrips := (Markup.argument h a t).strips
    have hgroup : (groupBody 0 t).before ++ (groupBody 0 t).after.take 1 ++
        (groupBody 0 t).after.drop 1 = t := by
      rw [List.append_assoc, List.take_append_drop, groupBody_append]
    have hsplit : a ++ (name ++ '{' :: ((groupBody 0 t).before ++ (groupBody 0 t).after.take 1)) ++
        (groupBody 0 t).after.drop 1 = a ++ name ++ '{' :: t := by
      conv => rhs; rw [← hgroup]
      simp
    rw [hsplit] at hstrips
    exact hstrips
  · rw [Removal.remains_of_head?_ne _ hs]
    exact (Markup.command (List.mem_append_left _ h) hs a).strips

theorem strips_opening {name : Text} (h : name ∈ unwrappedCommands) (a s : Text) :
    Strips (a ++ name ++ '{' :: s) (a ++ s) := by
  have hopening := (Markup.opening h a s).strips
  have hsplit : a ++ (name ++ ['{']) ++ s = a ++ name ++ '{' :: s := by simp
  rw [hsplit] at hopening
  exact hopening

theorem strips_closing {name body rest : Text} (h : name ∈ unwrappedCommands)
    (hbody : groupBody 0 (body ++ '}' :: rest) = ⟨body, '}' :: rest⟩) (a : Text) :
    Strips (a ++ name ++ '{' :: (body ++ '}' :: rest)) (a ++ name ++ '{' :: (body ++ rest)) := by
  have hclosing := (Markup.closing h hbody a).strips
  have hsplit : a ++ name ++ '{' :: body ++ ['}'] ++ rest =
      a ++ name ++ '{' :: (body ++ '}' :: rest) := by simp
  have hjoin : a ++ name ++ '{' :: body ++ rest = a ++ name ++ '{' :: (body ++ rest) := by simp
  rw [hsplit, hjoin] at hclosing
  exact hclosing

theorem strips_unwrap {name : Text} (h : name ∈ unwrappedCommands) (a s : Text) :
    Strips (a ++ name ++ s) (a ++ Removal.unwrap.remains s) := by
  by_cases hs : s.head? = some '{'
  · obtain ⟨t, rfl⟩ := List.head?_eq_some_iff.1 hs
    have hremains : Removal.unwrap.remains ('{' :: t) =
        (groupBody 0 t).before ++ (groupBody 0 t).after.drop 1 := rfl
    have hgroup := groupBody_append 0 t
    rcases after_groupBody 0 t with hafter | ⟨rest, hafter⟩
    · rw [hafter, List.append_nil] at hgroup
      rw [hremains, hafter, List.drop_nil, List.append_nil, hgroup]
      exact strips_opening h a t
    · rw [hafter] at hgroup
      have hbody : groupBody 0 ((groupBody 0 t).before ++ '}' :: rest) =
          ⟨(groupBody 0 t).before, '}' :: rest⟩ := by
        rw [hgroup, ← hafter]
      have hclosing := strips_closing h hbody a
      rw [hgroup] at hclosing
      rw [hremains, hafter, List.drop_one, List.tail_cons]
      exact hclosing.trans (strips_opening h a _)
  · rw [Removal.remains_of_head?_ne _ hs]
    exact (Markup.command (List.mem_append_right _ h) hs a).strips

theorem strips_apply {q : Replacement} (h : q ∈ cosmeticDeletions) (s : Text) :
    Strips s (q.apply s) := by
  have hnew : ∀ q ∈ cosmeticDeletions, q.new = [] := by decide
  refine Replacement.apply_induction (P := Strips s) ?_ Relation.ReflTransGen.refl
  intro a b hs
  rw [← List.append_assoc] at hs
  rw [hnew q h, List.nil_append]
  exact hs.trans (Markup.mark h a b).strips

/-- Removing commands of style and deleting marks takes out pieces of markup and does nothing
    else. -/
theorem strips_deleteCosmetics_removeStyling (s : Text) :
    Strips s (deleteCosmetics (removeStyling s)) := by
  have hdeleted : Strips s
      (deletedCommands.foldl (fun t name => removeCommand .anywhere .delete name t) s) := by
    refine List.foldlRecOn deletedCommands _ Relation.ReflTransGen.refl ?_
    intro t ht name hname
    exact removeCommand_induction (P := Strips s) (fun hk => hk.trans (strips_delete hname _ _)) ht
  have hstyling : Strips s (removeStyling s) := by
    refine List.foldlRecOn unwrappedCommands _ hdeleted ?_
    intro t ht name hname
    exact removeCommand_induction (P := Strips s) (fun hk => hk.trans (strips_unwrap hname _ _)) ht
  refine Replacement.applyAll_induction (P := Strips s) ?_ hstyling
  intro q hq t ht
  exact ht.trans (strips_apply hq t)

/-- While markup is taken out, each new name comes up at one of the pieces. -/
theorem Strips.mem_commandNames {s t w : Text} (hst : Strips s t) (h : w ∈ commandNames t) :
    w ∈ commandNames s ∨ ∃ a p b, Markup a p b ∧ Strips s (a ++ p ++ b) ∧ Strips (a ++ b) t ∧
      Fuses a p b w := by
  induction hst using Relation.ReflTransGen.head_induction_on with
  | refl => exact Or.inl h
  | head hstep hrest ih =>
    obtain ⟨a, p, b, hp, rfl, rfl⟩ := hstep
    rcases ih with hmem | ⟨a', p', b', hp', hreach, hleave, hfuses⟩
    · rcases mem_commandNames_cut hmem with hmem | hfuses
      · exact Or.inl hmem
      · exact Or.inr ⟨a, p, b, hp, Relation.ReflTransGen.refl, hrest, hfuses⟩
    · exact Or.inr ⟨a', p', b', hp', hp.strips.trans hreach, hleave, hfuses⟩

/-- A command without the marks and the commands of style is a command of the text, unless on the
    way a piece was taken out right behind a command and a letter was at its start or came up behind
    it. Then the name is that of the command in front of the piece with the letters behind it. -/
theorem mem_commandNames_stripped {s w : Text}
    (h : w ∈ commandNames (deleteCosmetics (removeStyling s))) :
    w ∈ commandNames s ∨ ∃ a p b, Markup a p b ∧ Strips s (a ++ p ++ b) ∧
      Strips (a ++ b) (deleteCosmetics (removeStyling s)) ∧ Fuses a p b w :=
  (strips_deleteCosmetics_removeStyling s).mem_commandNames h

/-- In `\pi\,r` the command runs together with the letter behind the thin space. -/
theorem mem_commandNames_thin_space :
    "pir".toList ∈ commandNames (deleteCosmetics (removeStyling "\\pi\\,r".toList)) ∧
      "pir".toList ∉ commandNames "\\pi\\,r".toList := by
  decide +kernel

theorem mem_commandNames_stripped_thin_space :
    "pir".toList ∈ commandNames (deleteCosmetics (removeStyling "\\pi\\,r".toList)) ∧
      ∃ a p b, Markup a p b ∧ Strips "\\pi\\,r".toList (a ++ p ++ b) ∧
        Strips (a ++ b) (deleteCosmetics (removeStyling "\\pi\\,r".toList)) ∧
        Fuses a p b "pir".toList := by
  obtain ⟨hmem, hnew⟩ := mem_commandNames_thin_space
  exact ⟨hmem, (mem_commandNames_stripped hmem).resolve_left hnew⟩

/-- So taking out markup can give a text a command that it did not have. -/
theorem not_commandNames_stripped_subset :
    ¬ ∀ s : Text, commandNames (deleteCosmetics (removeStyling s)) ⊆ commandNames s := by
  intro h
  obtain ⟨hmem, hnew⟩ := mem_commandNames_thin_space
  exact hnew (h _ hmem)

end TidyTex
