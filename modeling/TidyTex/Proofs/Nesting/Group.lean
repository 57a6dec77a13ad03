import TidyTex.Brace.Group
import TidyTex.Proofs.Nesting.Basic

/-! Where the groups of a text that nests begin and end.

    A delimiter that is open is closed where the text behind it has nested
    (`exists_closing`), and the top delimiter that a text leaves open was opened where the rest of
    that text nests (`exists_opening`). Braces among the seen delimiters end the group that
    `groupBody` cuts at the same place, although it counts nothing but braces
    (`groupBody_of_openAfter`): the other delimiters inside are closed again before the brace. -/

namespace TidyTex.Text

open Delimiter

variable {seen : Char → Bool}

/-- A seen pair with a text between it that nests leaves the open delimiters as they are. -/
theorem openAfter_pair {d : Delimiter} (ho : seen d.opening = true) (hc : seen d.closing = true)
    {x : Text} (hx : Nests seen x) (stack : List Delimiter) (t : Text) :
    openAfter seen stack (d.opening :: (x ++ d.closing :: t)) = openAfter seen stack t := by
  rw [openAfter_cons_of_opened? ho (opened?_eq_some_iff.2 rfl), openAfter_append, hx.openAfter,
    Option.bind_some, openAfter_cons_of_closed? hc (closed?_eq_some_iff.2 rfl)]

/-- Where an open delimiter is closed: the text before nests on top of it, and the text behind goes
    on from the delimiters below it. -/
theorem exists_closing {inner low out : List Delimiter} {d : Delimiter} {s : Text}
    (h : openAfter seen (inner ++ d :: low) s = some out) (hlen : out.length ≤ low.length) :
    ∃ x c t, s = x ++ c :: t ∧ seen c = true ∧ closed? c = some d ∧
      openAfter seen inner x = some [] ∧ openAfter seen low t = some out := by
  induction s generalizing inner with
  | nil =>
    rw [openAfter_nil, Option.some.injEq] at h
    subst h
    simp only [List.length_append, List.length_cons] at hlen
    omega
  | cons c s ih =>
    rcases openAfter_cons_cases h with ⟨e, hc, he, hs⟩ | ⟨e, rest, hc, he, hst, hs⟩ | ⟨hc, hs⟩
    · have hs' : openAfter seen (e :: inner ++ d :: low) s = some out := hs
      obtain ⟨x, c', t, rfl, hc', hcl, hx, ht⟩ := ih hs'
      refine ⟨c :: x, c', t, rfl, hc', hcl, ?_, ht⟩
      rw [openAfter_cons_of_opened? hc he]
      exact hx
    · cases inner with
      | nil =>
        obtain ⟨rfl, rfl⟩ := List.cons.inj hst
        exact ⟨[], c, s, rfl, hc, he, rfl, hs⟩
      | cons top inner =>
        obtain ⟨rfl, rfl⟩ := List.cons.inj hst
        obtain ⟨x, c', t, rfl, hc', hcl, hx, ht⟩ := ih hs
        refine ⟨c :: x, c', t, rfl, hc', hcl, ?_, ht⟩
        rw [openAfter_cons_of_closed? hc he]
        exact hx
    · obtain ⟨x, c', t, rfl, hc', hcl, hx, ht⟩ := ih hs
      refine ⟨c :: x, c', t, rfl, hc', hcl, ?_, ht⟩
      rw [openAfter_cons_of_inert hc]
      exact hx

/-- Where the top delimiter was opened that a text leaves open. -/
theorem exists_opening {stack : List Delimiter} {d : Delimiter} {s : Text}
    (h : openAfter seen [] s = some (d :: stack)) :
    ∃ p c x, s = p ++ c :: x ∧ seen c = true ∧ opened? c = some d ∧
      openAfter seen [] p = some stack ∧ Nests seen x := by
  -- A closing delimiter at the end sends the search into a shorter text twice, once for its own
  -- partner and once for `d`, so the induction is on the length.
  induction hn : s.length using Nat.strongRecOn generalizing s stack d with
  | _ n ih =>
    rcases List.eq_nil_or_concat s with rfl | ⟨s, c, rfl⟩
    · cases h
    · rw [List.length_concat] at hn
      rw [List.concat_eq_append] at h ⊢
      obtain ⟨mid, hs, hc⟩ := openAfter_append_eq_some_iff.1 h
      rcases openAfter_cons_cases hc with
        ⟨e, hseen, he, h'⟩ | ⟨e, rest, hseen, he, rfl, h'⟩ | ⟨hi, h'⟩
      · cases h'
        exact ⟨s, c, [], rfl, hseen, he, hs, nests_nil⟩
      · cases h'
        obtain ⟨p, o, x, rfl, ho, hoe, hp, hx⟩ := ih s.length (by omega) hs rfl
        have hlen : p.length < n := by
          simp only [List.length_append, List.length_cons] at hn
          omega
        obtain ⟨p', o', x', rfl, ho', hod, hp', hx'⟩ := ih p.length hlen hp rfl
        obtain rfl : o = e.opening := opened?_eq_some_iff.1 hoe
        obtain rfl : c = e.closing := closed?_eq_some_iff.1 he
        exact ⟨p', o', x' ++ e.opening :: (x ++ [e.closing]), by simp, ho', hod, hp',
          hx'.append (openAfter_pair ho hseen hx [] [])⟩
      · cases h'
        obtain ⟨p, o, x, rfl, ho, hod, hp, hx⟩ := ih s.length (by omega) hs rfl
        refine ⟨p, o, x ++ [c], by simp, ho, hod, hp, hx.append ?_⟩
        rw [Nests, openAfter_cons_of_inert hi, openAfter_nil]

/-- Both braces are among the characters that are seen. -/
structure SeesBraces (seen : Char → Bool) : Prop where
  opening : seen '{' = true
  closing : seen '}' = true

/-- Where every character is seen, braces are. -/
theorem seesBraces_all : SeesBraces fun _ => true := ⟨rfl, rfl⟩

/-- A group whose content nests leaves the open delimiters as they are. -/
theorem openAfter_group (hseen : SeesBraces seen) {x : Text} (hx : Nests seen x)
    (stack : List Delimiter) (t : Text) :
    openAfter seen stack ('{' :: (x ++ '}' :: t)) = openAfter seen stack t :=
  openAfter_pair (d := .brace) hseen.opening hseen.closing hx stack t

theorem nests_braced (hseen : SeesBraces seen) {x : Text} (hx : Nests seen x) :
    Nests seen (braced x) := openAfter_group hseen hx [] []

theorem groupBody_cons_of_not_brace {c : Char} (ho : c ≠ '{') (hc : c ≠ '}') (depth : Nat)
    (s : Text) : groupBody depth (c :: s) = (groupBody depth s).prepend [c] := by
  cases depth with
  | zero => simp [groupBody, hc]
  | succ depth => simp [groupBody, hc]

/-- A group ends at the closing brace before which its content has nested. -/
theorem groupBody_of_openAfter (hseen : SeesBraces seen) {inner : List Delimiter} {x : Text}
    (h : openAfter seen inner x = some []) (t : Text) :
    groupBody (inner.count .brace) (x ++ '}' :: t) = ⟨x, '}' :: t⟩ := by
  induction x generalizing inner with
  | nil => cases h; rfl
  | cons c x ih =>
    rcases openAfter_cons_cases h with ⟨d, hc, hd, hx⟩ | ⟨d, rest, hc, hd, rfl, hx⟩ | ⟨hc, hx⟩
    · by_cases hb : d = .brace
      · subst hb
        obtain rfl : c = '{' := opened?_eq_some_iff.1 hd
        have hx' := ih hx
        rw [List.count_cons_self] at hx'
        rw [List.cons_append, groupBody, hx']
        rfl
      · have ho : c ≠ '{' := by rintro rfl; exact hb (Option.some.inj hd).symm
        have hcl : c ≠ '}' := by rintro rfl; cases hd
        have hx' := ih hx
        rw [List.count_cons_of_ne hb] at hx'
        rw [List.cons_append, groupBody_cons_of_not_brace ho hcl, hx']
        rfl
    · by_cases hb : d = .brace
      · subst hb
        obtain rfl : c = '}' := closed?_eq_some_iff.1 hd
        rw [List.count_cons_self, List.cons_append, groupBody, ih hx]
        rfl
      · have ho : c ≠ '{' := by rintro rfl; cases hd
        have hcl : c ≠ '}' := by rintro rfl; exact hb (Option.some.inj hd).symm
        rw [List.count_cons_of_ne hb, List.cons_append, groupBody_cons_of_not_brace ho hcl, ih hx]
        rfl
    · have ho : c ≠ '{' := by rintro rfl; cases (hc hseen.opening).1
      have hcl : c ≠ '}' := by rintro rfl; cases (hc hseen.closing).2
      rw [List.cons_append, groupBody_cons_of_not_brace ho hcl, ih hx]
      rfl

/-- The group behind an opening brace, when the delimiters before it and behind it get closed: its
    content nests, and so do the texts around it without the group. -/
theorem exists_group (hseen : SeesBraces seen) {low out : List Delimiter} {s : Text}
    (h : openAfter seen low ('{' :: s) = some out) (hlen : out.length ≤ low.length) :
    ∃ x t, s = x ++ '}' :: t ∧ groupBody 0 s = ⟨x, '}' :: t⟩ ∧ Nests seen x ∧
      openAfter seen low t = some out := by
  rw [openAfter_cons_of_opened? hseen.opening (d := .brace) rfl] at h
  have h' : openAfter seen ([] ++ .brace :: low) s = some out := h
  obtain ⟨x, c, t, rfl, -, hc, hx, ht⟩ := exists_closing h' hlen
  obtain rfl : c = '}' := closed?_eq_some_iff.1 hc
  exact ⟨x, t, rfl, groupBody_of_openAfter hseen hx t, hx, ht⟩

end TidyTex.Text
