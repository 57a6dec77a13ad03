import TidyTex.Delimiter

/-! Nesting, with some delimiters or all of them looked at.

    Balance is checked on three pairs of delimiters, while commands find their arguments by braces
    alone. Both are one fold, over the characters that are `seen`:

        seen all characters     ──▶ the balance of the whole text (`isBalanced_iff_nests`)
        seen braces only        ──▶ the depth of braces

    A text nests when the fold leads from no open delimiter back to none. Delimiters that are open
    before it then stay as they are (`Nests.openAfter`), so such a text can be taken out of another,
    put into it, or put in place of another one. -/

namespace TidyTex

namespace Delimiter

/-- The character that opens a pair. -/
def opening : Delimiter → Char
  | paren => '('
  | bracket => '['
  | brace => '{'

/-- The character that closes a pair. -/
def closing : Delimiter → Char
  | paren => ')'
  | bracket => ']'
  | brace => '}'

theorem opened?_eq_some_iff {c : Char} {d : Delimiter} : opened? c = some d ↔ c = d.opening := by
  constructor
  · intro h
    unfold opened? at h
    split at h <;> cases h <;> rfl
  · rintro rfl
    cases d <;> rfl

theorem closed?_eq_some_iff {c : Char} {d : Delimiter} : closed? c = some d ↔ c = d.closing := by
  constructor
  · intro h
    unfold closed? at h
    split at h <;> cases h <;> rfl
  · rintro rfl
    cases d <;> rfl

theorem closed?_of_opened? {c : Char} {d : Delimiter} (h : opened? c = some d) :
    closed? c = none := by
  cases opened?_eq_some_iff.1 h
  cases d <;> rfl

/-- A kind of characters that holds no delimiter. -/
theorem inert_of_kind {kind : Char → Bool}
    (h : ∀ d : Delimiter, kind d.opening = false ∧ kind d.closing = false) {c : Char}
    (hc : kind c = true) : opened? c = none ∧ closed? c = none := by
  constructor
  · rw [Option.eq_none_iff_forall_ne_some]
    intro d hd
    rw [opened?_eq_some_iff.1 hd, (h d).1] at hc
    cases hc
  · rw [Option.eq_none_iff_forall_ne_some]
    intro d hd
    rw [closed?_eq_some_iff.1 hd, (h d).2] at hc
    cases hc

theorem step_of_opened? {c : Char} {d : Delimiter} (h : opened? c = some d)
    (stack : List Delimiter) : step stack c = some (d :: stack) := by
  simp [step, h]

theorem step_of_closed? {c : Char} {d : Delimiter} (h : closed? c = some d)
    (stack : List Delimiter) : step (d :: stack) c = some stack := by
  have ho : opened? c = none := by
    cases ho : opened? c with
    | none => rfl
    | some e => rw [closed?_of_opened? ho] at h; cases h
  simp [step, ho, h]

/-- What a character can do to the open delimiters: open one more, close the top one, or nothing. -/
theorem step_cases {stack stack' : List Delimiter} {c : Char} (h : step stack c = some stack') :
    (∃ d, opened? c = some d ∧ stack' = d :: stack) ∨
    (∃ d, closed? c = some d ∧ stack = d :: stack') ∨
    (opened? c = none ∧ closed? c = none ∧ stack' = stack) := by
  unfold step at h
  cases ho : opened? c with
  | some d =>
    simp only [ho, Option.some.injEq] at h
    exact Or.inl ⟨d, rfl, h.symm⟩
  | none =>
    simp only [ho] at h
    cases hc : closed? c with
    | none =>
      simp only [hc, Option.some.injEq] at h
      exact Or.inr (Or.inr ⟨rfl, rfl, h.symm⟩)
    | some d =>
      simp only [hc] at h
      cases stack with
      | nil => cases h
      | cons top rest =>
        simp only at h
        split at h
        · next heq => cases h; exact Or.inr (Or.inl ⟨d, rfl, by rw [heq]⟩)
        · cases h

end Delimiter

namespace Text

open Delimiter

variable {seen : Char → Bool}

/-- The delimiters that are open after a text, if those that are seen in it nest. -/
def openAfter (seen : Char → Bool) (stack : List Delimiter) (s : Text) :
    Option (List Delimiter) := (s.filter seen).foldlM step stack

@[simp] theorem openAfter_nil (stack : List Delimiter) : openAfter seen stack [] = some stack := rfl

theorem openAfter_append (stack : List Delimiter) (s t : Text) :
    openAfter seen stack (s ++ t) = (openAfter seen stack s).bind (openAfter seen · t) := by
  rw [openAfter, List.filter_append, List.foldlM_append]
  rfl

theorem openAfter_cons (stack : List Delimiter) (c : Char) (s : Text) :
    openAfter seen stack (c :: s) = (openAfter seen stack [c]).bind (openAfter seen · s) :=
  openAfter_append stack [c] s

theorem openAfter_append_eq_some_iff {stack out : List Delimiter} {s t : Text} :
    openAfter seen stack (s ++ t) = some out ↔
      ∃ mid, openAfter seen stack s = some mid ∧ openAfter seen mid t = some out := by
  rw [openAfter_append, Option.bind_eq_some_iff]

theorem openAfter_cons_of_seen {c : Char} (h : seen c = true) (stack : List Delimiter) (s : Text) :
    openAfter seen stack (c :: s) = (step stack c).bind (openAfter seen · s) := by
  rw [openAfter, List.filter_cons_of_pos h, List.foldlM_cons]
  rfl

theorem openAfter_cons_of_not_seen {c : Char} (h : seen c = false) (stack : List Delimiter)
    (s : Text) : openAfter seen stack (c :: s) = openAfter seen stack s := by
  rw [openAfter, List.filter_cons_of_neg (by simp [h])]
  rfl

theorem openAfter_cons_of_opened? {c : Char} {d : Delimiter} (h : seen c = true)
    (hd : opened? c = some d) (stack : List Delimiter) (s : Text) :
    openAfter seen stack (c :: s) = openAfter seen (d :: stack) s := by
  rw [openAfter_cons_of_seen h, step_of_opened? hd, Option.bind_some]

theorem openAfter_cons_of_closed? {c : Char} {d : Delimiter} (h : seen c = true)
    (hd : closed? c = some d) (stack : List Delimiter) (s : Text) :
    openAfter seen (d :: stack) (c :: s) = openAfter seen stack s := by
  rw [openAfter_cons_of_seen h, step_of_closed? hd, Option.bind_some]

/-- A character that is not seen or is no delimiter is passed over. -/
theorem openAfter_cons_of_inert {c : Char}
    (h : seen c = true → opened? c = none ∧ closed? c = none) (stack : List Delimiter) (s : Text) :
    openAfter seen stack (c :: s) = openAfter seen stack s := by
  cases hc : seen c with
  | false => exact openAfter_cons_of_not_seen hc stack s
  | true =>
    obtain ⟨ho, hcl⟩ := h hc
    simp [openAfter_cons_of_seen hc, step, ho, hcl]

/-- What the first character of a text does, and the rest goes on from there. -/
theorem openAfter_cons_cases {stack out : List Delimiter} {c : Char} {s : Text}
    (h : openAfter seen stack (c :: s) = some out) :
    (∃ d, seen c = true ∧ opened? c = some d ∧ openAfter seen (d :: stack) s = some out) ∨
    (∃ d rest, seen c = true ∧ closed? c = some d ∧ stack = d :: rest ∧
      openAfter seen rest s = some out) ∨
    ((seen c = true → opened? c = none ∧ closed? c = none) ∧
      openAfter seen stack s = some out) := by
  cases hc : seen c with
  | false =>
    rw [openAfter_cons_of_not_seen hc] at h
    exact Or.inr (Or.inr ⟨nofun, h⟩)
  | true =>
    rw [openAfter_cons_of_seen hc, Option.bind_eq_some_iff] at h
    obtain ⟨mid, hmid, h⟩ := h
    rcases step_cases hmid with ⟨d, hd, rfl⟩ | ⟨d, hd, rfl⟩ | ⟨ho, hcl, rfl⟩
    · exact Or.inl ⟨d, rfl, hd, h⟩
    · exact Or.inr (Or.inl ⟨d, mid, rfl, hd, rfl, h⟩)
    · exact Or.inr (Or.inr ⟨fun _ => ⟨ho, hcl⟩, h⟩)

/-- Delimiters below the open ones are not touched. -/
theorem openAfter_append_stack {stack out : List Delimiter} {s : Text}
    (h : openAfter seen stack s = some out) (low : List Delimiter) :
    openAfter seen (stack ++ low) s = some (out ++ low) := by
  induction s generalizing stack with
  | nil =>
    rw [openAfter_nil, Option.some.injEq] at h ⊢
    rw [h]
  | cons c s ih =>
    rcases openAfter_cons_cases h with ⟨d, hc, hd, hs⟩ | ⟨d, rest, hc, hd, rfl, hs⟩ | ⟨hc, hs⟩
    · rw [openAfter_cons_of_opened? hc hd]
      exact ih hs
    · rw [List.cons_append, openAfter_cons_of_closed? hc hd]
      exact ih hs
    · rw [openAfter_cons_of_inert hc]
      exact ih hs

/-- Whether the seen delimiters of a text nest and are closed. -/
def Nests (seen : Char → Bool) (s : Text) : Prop := openAfter seen [] s = some []

instance (seen : Char → Bool) (s : Text) : Decidable (Nests seen s) :=
  inferInstanceAs (Decidable (openAfter seen [] s = some []))

/-- All delimiters seen, nesting is balance. -/
theorem isBalanced_iff_nests {s : Text} : isBalanced s = true ↔ Nests (fun _ => true) s := by
  rw [isBalanced_iff, Nests, openAfter, List.filter_eq_self.2 fun _ _ => rfl]

/-- A text that nests leaves the open delimiters as they are. -/
theorem Nests.openAfter {s : Text} (h : Nests seen s) (stack : List Delimiter) :
    Text.openAfter seen stack s = some stack := openAfter_append_stack h stack

@[simp] theorem nests_nil : Nests seen [] := rfl

theorem Nests.append {s t : Text} (hs : Nests seen s) (ht : Nests seen t) :
    Nests seen (s ++ t) := openAfter_append_eq_some_iff.2 ⟨[], hs, ht⟩

theorem nests_append_iff_of_left {s t : Text} (hs : Nests seen s) :
    Nests seen (s ++ t) ↔ Nests seen t := by
  rw [Nests, openAfter_append, hs.openAfter, Option.bind_some, Nests]

theorem nests_append_iff_of_right {s t : Text} (ht : Nests seen t) :
    Nests seen (s ++ t) ↔ Nests seen s := by
  constructor
  · intro h
    obtain ⟨mid, hs, hmid⟩ := openAfter_append_eq_some_iff.1 h
    rw [ht.openAfter, Option.some.injEq] at hmid
    rw [hmid] at hs
    exact hs
  · intro hs
    exact hs.append ht

/-- A text without seen delimiters nests. -/
theorem nests_of_inert {s : Text}
    (h : ∀ c ∈ s, seen c = true → opened? c = none ∧ closed? c = none) : Nests seen s := by
  induction s with
  | nil => exact nests_nil
  | cons c s ih =>
    rw [Nests, openAfter_cons_of_inert (h c (List.mem_cons_self ..))]
    exact ih fun d hd => h d (List.mem_cons_of_mem c hd)

/-- A text of characters of a kind that holds no delimiter nests. -/
theorem nests_of_kind {kind : Char → Bool}
    (h : ∀ d : Delimiter, kind d.opening = false ∧ kind d.closing = false) {s : Text}
    (hs : ∀ c ∈ s, kind c = true) : Nests seen s :=
  nests_of_inert fun c hc _ => inert_of_kind h (hs c hc)

/-- Dropping such characters from the head of a text makes no difference. -/
theorem nests_dropWhile_iff {kind : Char → Bool}
    (h : ∀ d : Delimiter, kind d.opening = false ∧ kind d.closing = false) {s : Text} :
    Nests seen (s.dropWhile kind) ↔ Nests seen s := by
  have hrun : Nests seen (s.takeWhile kind) :=
    nests_of_kind h (List.all_eq_true.1 List.all_takeWhile)
  rw [← nests_append_iff_of_left hrun, List.takeWhile_append_dropWhile]

/-- A text of which nothing is seen nests. -/
theorem nests_of_not_seen {s : Text} (h : ∀ c ∈ s, seen c = false) : Nests seen s :=
  nests_of_inert fun c hc hseen => by rw [h c hc] at hseen; cases hseen

/-- Nesting depends on the seen characters only. -/
theorem nests_iff_of_filter_eq {s t : Text} (h : s.filter seen = t.filter seen) :
    Nests seen s ↔ Nests seen t := by
  rw [Nests, Nests, openAfter, openAfter, h]

end Text

end TidyTex
