import TidyTex.Symbol

/-! What folding symbols does to a text.

    A folded text holds no symbol that could be folded (`sign?_of_mem_foldSymbols`), so folding it
    again changes nothing. Beyond the symbols and what is written for them no character is touched
    (`filter_foldSymbols`), and no command comes up that is not the start of a sign
    (`isInfix_of_isInfix_foldSymbols`). -/

namespace TidyTex

theorem mem_symbols_of_sign? {c : Char} {sign : Sign} (h : sign? c = some sign) :
    (c, sign) ∈ symbols := by
  obtain ⟨l, r, he, -⟩ := List.lookup_eq_some_iff.1 h
  rw [he]
  simp

theorem sign?_of_isAscii {c : Char} (h : Text.isAscii c = true) : sign? c = none := by
  cases hs : sign? c with
  | none => rfl
  | some sign =>
    have hc := Text.isAscii_of_sign?_isSome (c := c) (by rw [hs]; rfl)
    rw [h] at hc
    cases hc

theorem Sign.gap_cases (sign : Sign) (s : Text) : sign.gap s = [] ∨ sign.gap s = [' '] := by
  cases sign with
  | symbol c => exact Or.inl rfl
  | command name =>
    rw [gap]
    split
    · exact Or.inr rfl
    · exact Or.inl rfl

/-- A symbol stands for a minus sign or for a command of letters. -/
theorem Sign.spelling_cases {c : Char} {sign : Sign} (h : sign? c = some sign) :
    sign.spelling = ['-'] ∨
      ∃ e name, sign.spelling = '\\' :: e :: name ∧ ∀ d ∈ e :: name, d.isAlpha = true := by
  have hsymbol : ∀ q ∈ symbols, q.2.spelling = ['-'] ∨
      q.2.spelling.head? = some '\\' ∧ q.2.spelling.tail ≠ [] ∧
        q.2.spelling.tail.all Char.isAlpha = true := by decide
  rcases hsymbol _ (mem_symbols_of_sign? h) with hs | ⟨hhead, hne, htail⟩
  · exact Or.inl hs
  · obtain ⟨t, ht⟩ := List.head?_eq_some_iff.1 hhead
    rw [ht, List.tail_cons] at hne htail
    obtain ⟨e, name, rfl⟩ := List.exists_cons_of_ne_nil hne
    exact Or.inr ⟨e, name, ht, List.all_eq_true.1 htail⟩

/-- A sign and the gap behind it are written in ASCII. -/
theorem Sign.isAscii_of_mem {c : Char} {sign : Sign} (h : sign? c = some sign) (s : Text) :
    ∀ d ∈ sign.spelling ++ sign.gap s, Text.isAscii d = true := by
  have hspelling : ∀ q ∈ symbols, q.2.spelling.all Text.isAscii = true := by decide
  intro d hd
  rcases List.mem_append.1 hd with hd | hd
  · exact List.all_eq_true.1 (hspelling _ (mem_symbols_of_sign? h)) d hd
  · rcases sign.gap_cases s with hg | hg
    · rw [hg] at hd
      cases hd
    · rw [hg, List.mem_singleton] at hd
      subst hd
      rfl

namespace Text

theorem foldSymbols_of_none {c : Char} (h : sign? c = none) (s : Text) :
    foldSymbols (c :: s) = c :: foldSymbols s := by
  rw [foldSymbols, h]

theorem foldSymbols_of_some {c : Char} {sign : Sign} (h : sign? c = some sign) (s : Text) :
    foldSymbols (c :: s) = sign.spelling ++ sign.gap s ++ foldSymbols s := by
  rw [foldSymbols, h]

/-- Nothing in a folded text can be folded. -/
theorem sign?_of_mem_foldSymbols {s : Text} : ∀ c ∈ foldSymbols s, sign? c = none := by
  induction s with
  | nil => nofun
  | cons d s ih =>
    cases hd : sign? d with
    | none =>
      rw [foldSymbols_of_none hd, List.forall_mem_cons]
      exact ⟨hd, ih⟩
    | some sign =>
      rw [foldSymbols_of_some hd, List.forall_mem_append]
      exact ⟨fun c hc => sign?_of_isAscii (Sign.isAscii_of_mem hd s c hc), ih⟩

/-- Where nothing can be folded, folding changes nothing. -/
theorem foldSymbols_eq_self_of_sign? {s : Text} (h : ∀ c ∈ s, sign? c = none) :
    foldSymbols s = s := by
  induction s with
  | nil => rfl
  | cons c s ih =>
    rw [List.forall_mem_cons] at h
    rw [foldSymbols_of_none h.1, ih h.2]

/-- Characters that occur neither among the symbols nor in what is written for them stay. -/
theorem filter_foldSymbols {p : Char → Bool}
    (h : ∀ q ∈ symbols, p q.1 = false ∧ q.2.spelling.filter p = []) (hgap : p ' ' = false)
    (s : Text) : (foldSymbols s).filter p = s.filter p := by
  induction s with
  | nil => rfl
  | cons c s ih =>
    cases hc : sign? c with
    | none => rw [foldSymbols_of_none hc, List.filter_cons, List.filter_cons, ih]
    | some sign =>
      obtain ⟨hsymbol, hsign⟩ := h _ (mem_symbols_of_sign? hc)
      have hgap' : (sign.gap s).filter p = [] := by
        rcases sign.gap_cases s with hg | hg
        · rw [hg, List.filter_nil]
        · rw [hg, List.filter_cons_of_neg (by simp [hgap]), List.filter_nil]
      rw [foldSymbols_of_some hc, List.filter_append, List.filter_append, hsign, hgap', ih,
        List.filter_cons_of_neg (by simp [hsymbol])]
      rfl

/-- A text that begins with a character found nowhere in `x` does not reach into `x`. -/
theorem isInfix_of_isInfix_append {c : Char} {w x y : Text} (hx : c ∉ x)
    (h : c :: w <:+: x ++ y) : c :: w <:+: y := by
  induction x with
  | nil => exact h
  | cons d x ih =>
    rw [List.mem_cons, not_or] at hx
    rw [List.cons_append, List.infix_cons_iff, List.cons_prefix_cons] at h
    rcases h with ⟨hcd, -⟩ | h
    · exact absurd hcd hx.1
    · exact ih hx.2 h

/-- What begins a folded text begins the text itself, unless it begins like a sign. -/
theorem isPrefix_of_isPrefix_foldSymbols {w s : Text} (hback : '\\' ∉ w) (hminus : '-' ∉ w)
    (h : w <+: foldSymbols s) : w <+: s := by
  induction s generalizing w with
  | nil => exact h
  | cons c s ih =>
    cases w with
    | nil => exact List.nil_prefix
    | cons d w =>
      rw [List.mem_cons, not_or] at hback hminus
      cases hc : sign? c with
      | none =>
        rw [foldSymbols_of_none hc, List.cons_prefix_cons] at h
        exact List.cons_prefix_cons.2 ⟨h.1, ih hback.2 hminus.2 h.2⟩
      | some sign =>
        rw [foldSymbols_of_some hc] at h
        rcases Sign.spelling_cases hc with hs | ⟨e, name, hs, -⟩
        · rw [hs, List.append_assoc, List.singleton_append, List.cons_prefix_cons] at h
          exact absurd h.1.symm hminus.1
        · rw [hs, List.append_assoc, List.cons_append, List.cons_prefix_cons] at h
          exact absurd h.1.symm hback.1

/-- A command in a folded text is in the text itself, unless it begins like the command of a
    sign. -/
theorem isInfix_of_isInfix_foldSymbols {e : Char} {w s : Text}
    (hback : '\\' ∉ e :: w) (hminus : '-' ∉ e :: w)
    (hstart : ∀ q ∈ symbols, ¬ ['\\', e] <+: q.2.spelling)
    (h : '\\' :: e :: w <:+: foldSymbols s) : '\\' :: e :: w <:+: s := by
  induction s with
  | nil => exact h
  | cons c s ih =>
    cases hc : sign? c with
    | none =>
      rw [foldSymbols_of_none hc, List.infix_cons_iff, List.cons_prefix_cons] at h
      rcases h with ⟨rfl, h⟩ | h
      · have hp := isPrefix_of_isPrefix_foldSymbols hback hminus h
        exact (List.cons_prefix_cons.2 ⟨rfl, hp⟩).isInfix
      · exact List.infix_cons (ih h)
    | some sign =>
      have hgap : '\\' ∉ sign.gap s := by
        rcases sign.gap_cases s with hg | hg <;> rw [hg] <;> decide
      refine List.infix_cons (ih ?_)
      rw [foldSymbols_of_some hc, List.append_assoc] at h
      rcases Sign.spelling_cases hc with hs | ⟨f, name, hs, hname⟩
      · rw [hs] at h
        exact isInfix_of_isInfix_append hgap (isInfix_of_isInfix_append (by decide) h)
      · have hletters : '\\' ∉ f :: name := fun hmem => absurd (hname _ hmem) (by decide)
        have hne : ¬ '\\' :: e :: w <+: '\\' :: f :: name ++ (sign.gap s ++ foldSymbols s) := by
          intro hp
          rw [List.cons_append, List.cons_append, List.cons_prefix_cons,
            List.cons_prefix_cons] at hp
          refine hstart _ (mem_symbols_of_sign? hc) ?_
          rw [hs, hp.2.1]
          exact List.prefix_append ['\\', f] name
        rw [hs, List.cons_append, List.infix_cons_iff] at h
        have h' := h.resolve_left hne
        exact isInfix_of_isInfix_append hgap (isInfix_of_isInfix_append hletters h')

end Text

end TidyTex
