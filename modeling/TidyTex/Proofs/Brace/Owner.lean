import TidyTex.Brace.Owner

/-! The grammar of owners.

        text before a group  ::=  any text, owner, gap
        owner                ::=  ^  |  _  |  \ letters c
        gap                  ::=  empty  |  space gap  |  tab gap  |  [ gap  |  [ x ] gap

    Here `letters` are alphabetic, and there may be none, `c` is any character but a backslash, a
    script mark, a space, a tab and a bracket, and `x` has no opening bracket in it. The owner is
    looked for from the right to the left, so a gap is read from its end: what is passed over is a
    gap (`exists_gap`), and a gap is passed over as a whole (`skipGap_reverse_append`). No owner ends
    in a character of a gap, and no name has a backslash in it, so there is one way at most to take
    a text apart. -/

namespace TidyTex

namespace Owner

/-- The texts that may stand between an owner and its group. -/
inductive Gap : Text → Prop
  | nil : Gap []
  | space {s : Text} (hs : Gap s) : Gap (' ' :: s)
  | tab {s : Text} (hs : Gap s) : Gap ('\t' :: s)
  | lone {s : Text} (hs : Gap s) : Gap ('[' :: s)
  | brackets {x s : Text} (hx : '[' ∉ x) (hs : Gap s) : Gap ('[' :: (x ++ ']' :: s))

/-- The characters that end no command name. -/
def nonFinal : Text := ['\\', '^', '_', ' ', '\t', '[', ']']

/-- Whether an owner can be written: the name of a command is letters and one more character. -/
def Written : Owner → Prop
  | superscript | subscript => True
  | command name => ∃ letters c,
      name = letters ++ [c] ∧ (∀ d ∈ letters, isAlphabetic d = true) ∧ c ∉ nonFinal

theorem Gap.append {s t : Text} (hs : Gap s) (ht : Gap t) : Gap (s ++ t) := by
  induction hs with
  | nil => exact ht
  | space _ ih => exact .space ih
  | tab _ ih => exact .tab ih
  | lone _ ih => exact .lone ih
  | brackets hx _ ih =>
    rw [List.cons_append, List.append_assoc, List.cons_append]
    exact .brackets hx ih

/-! ### Gaps, read leftwards -/

/-- Inside brackets everything is passed over up to the bracket that opens them. -/
theorem skipGap_inside {x : Text} (hx : '[' ∉ x) (t : Text) :
    skipGap true (x ++ '[' :: t) = skipGap false t := by
  induction x with
  | nil => rfl
  | cons c x ih =>
    rw [List.mem_cons, not_or] at hx
    rw [List.cons_append, skipGap, bne_iff_ne.2 (Ne.symm hx.1), ih hx.2]

/-- A gap is passed over. -/
theorem skipGap_reverse_append {g : Text} (hg : Gap g) (t : Text) :
    skipGap false (g.reverse ++ t) = skipGap false t := by
  induction hg generalizing t with
  | nil => rfl
  | space _ ih | tab _ ih | lone _ ih =>
    rw [List.reverse_cons, List.append_assoc, ih]
    rfl
  | @brackets x s hx _ ih =>
    have hreverse :
        ('[' :: (x ++ ']' :: s)).reverse ++ t = s.reverse ++ ']' :: (x.reverse ++ '[' :: t) := by
      simp
    rw [hreverse, ih, skipGap, if_pos rfl, skipGap_inside (mt List.mem_reverse.1 hx)]

/-- What has been passed over: a gap, which may be in the middle of its first pair of brackets. -/
def Passed : Bool → Text → Prop
  | false, g => Gap g
  | true, g => ∃ w x, g = w ++ '[' :: x ∧ Gap w ∧ '[' ∉ x

/-- Only a gap is passed over, and what stands in front of it belongs to none. -/
theorem exists_gap {inside : Bool} {x y : Text} {c : Char} (h : skipGap inside x = c :: y) :
    c ∉ [' ', '\t', '[', ']'] ∧ ∃ g, Passed inside g ∧ x = g.reverse ++ c :: y := by
  fun_induction skipGap inside x with
  | case1 => cases h
  | case2 d x ih =>
    by_cases hd : d = '['
    · subst hd
      obtain ⟨hc, g, hg, rfl⟩ := ih h
      exact ⟨hc, g ++ ['['], ⟨g, [], rfl, hg, List.not_mem_nil⟩, by simp⟩
    · rw [bne_iff_ne.2 hd] at h ih
      obtain ⟨hc, g, ⟨w, x, rfl, hw, hx⟩, rfl⟩ := ih h
      have hxd : '[' ∉ x ++ [d] := by simp [hx, Ne.symm hd]
      exact ⟨hc, w ++ '[' :: (x ++ [d]), ⟨w, x ++ [d], rfl, hw, hxd⟩, by simp⟩
  | case3 x ih =>
    obtain ⟨hc, g, ⟨w, x, rfl, hw, hx⟩, rfl⟩ := ih h
    exact ⟨hc, w ++ '[' :: (x ++ [']']), hw.append (.brackets hx .nil), by simp⟩
  | case4 d x _ hd ih =>
    obtain ⟨hc, g, hg, rfl⟩ := ih h
    have hunit : Gap [d] := by
      rcases hd with rfl | rfl | rfl
      · exact .space .nil
      · exact .tab .nil
      · exact .lone .nil
    exact ⟨hc, g ++ [d], Gap.append hg hunit, by simp⟩
  | case5 d x hclose hd =>
    cases h
    exact ⟨by simp_all, [], Gap.nil, rfl⟩

/-! ### The owner in front of a gap -/

theorem skipGap_of_notMem {c : Char} (hc : c ∉ [' ', '\t', '[', ']']) (x : Text) :
    skipGap false (c :: x) = c :: x := by
  simp at hc
  simp [skipGap, hc]

/-- A character that is no script mark and no backslash ends the name of a command if a backslash
    stands before the letters before it. -/
theorem read?_of_name {c : Char} {x : Text} (hscript : ¬ (c = '^' ∨ c = '_')) (hb : c ≠ '\\') :
    read? (c :: x) =
      if (Text.run isAlphabetic x).after.head? = some '\\' then
        some (.command (c :: (Text.run isAlphabetic x).before).reverse) else none := by
  rw [not_or] at hscript
  unfold read?
  split <;> simp_all

/-- The letters behind a backslash, read leftwards, go as far as that backslash. -/
theorem run_letters {letters : Text} (h : ∀ d ∈ letters, isAlphabetic d = true) (x : Text) :
    Text.run isAlphabetic (letters ++ '\\' :: x) = ⟨letters, '\\' :: x⟩ := by
  refine Text.run_append_of_head? h ?_
  rw [List.head?_cons, Option.any_some]
  decide +kernel

/-- An owner that can be written is read off its spelling. -/
theorem read?_skipGap_text {o : Owner} (ho : o.Written) (x : Text) :
    read? (skipGap false (o.text.reverse ++ x)) = some o := by
  cases o with
  | superscript => rfl
  | subscript => rfl
  | command name =>
    obtain ⟨letters, c, rfl, hletters, hc⟩ := ho
    simp [nonFinal] at hc
    have hreverse : (text (command (letters ++ [c]))).reverse ++ x =
        c :: (letters.reverse ++ '\\' :: x) := by simp [text]
    have hrun := run_letters (fun d hd => hletters d (List.mem_reverse.1 hd)) x
    rw [hreverse, skipGap_of_notMem (by simp [hc]), read?_of_name (by simp [hc]) hc.1, hrun]
    simp

/-- What is read is an owner that can be written, in its spelling. -/
theorem exists_text_of_read? {o : Owner} {c : Char} {x : Text} (hc : c ∉ [' ', '\t', '[', ']'])
    (h : read? (c :: x) = some o) : o.Written ∧ ∃ y, c :: x = o.text.reverse ++ y := by
  by_cases hscript : c = '^' ∨ c = '_'
  · rcases hscript with rfl | rfl
    · cases h
      exact ⟨trivial, x, rfl⟩
    · cases h
      exact ⟨trivial, x, rfl⟩
  · by_cases hb : c = '\\'
    · rw [hb] at h
      cases h
    · rw [read?_of_name hscript hb] at h
      split at h
      · next hhead =>
        cases h
        obtain ⟨y, hy⟩ := List.head?_eq_some_iff.1 hhead
        have hletters : ∀ d ∈ (Text.run isAlphabetic x).before.reverse, isAlphabetic d = true :=
          fun d hd => Text.of_mem_before_run (List.mem_reverse.1 hd)
        refine ⟨⟨_, c, List.reverse_cons, hletters, ?_⟩, y, ?_⟩
        · simp_all [nonFinal]
        · conv => lhs; rw [← Text.run_append isAlphabetic x, hy]
          simp [text]
      · cases h

end Owner

namespace Text

open Owner

/-- The owner of a group is what the grammar has in front of it. -/
theorem owner?_eq_some_iff {s : Text} {o : Owner} :
    owner? s = some o ↔ o.Written ∧ ∃ h g, s = h ++ (o.text ++ g) ∧ Gap g := by
  constructor
  · intro hs
    rw [owner?] at hs
    cases hskip : skipGap false s.reverse with
    | nil => rw [hskip] at hs; cases hs
    | cons c x =>
      rw [hskip] at hs
      obtain ⟨hc, g, hg, hreverse⟩ := exists_gap hskip
      obtain ⟨ho, y, hy⟩ := exists_text_of_read? hc hs
      refine ⟨ho, y.reverse, g, ?_, hg⟩
      rw [← List.reverse_inj, hreverse, hy]
      simp
  · rintro ⟨ho, h, g, rfl, hg⟩
    have hreverse : (h ++ (o.text ++ g)).reverse = g.reverse ++ (o.text.reverse ++ h.reverse) := by
      simp
    rw [owner?, hreverse, skipGap_reverse_append hg, read?_skipGap_text ho]

/-- An owner right before a group is its owner. -/
theorem owner?_append_text {o : Owner} (ho : o.Written) (h : Text) :
    owner? (h ++ o.text) = some o :=
  owner?_eq_some_iff.2 ⟨ho, h, [], by rw [List.append_nil], Gap.nil⟩

/-- Whether an owner stands in front of the group at offset `p`. The offset has to be a character
    boundary, and the text up to it reads the owner and a gap in the end. -/
def StandsBefore (o : Owner) (s : Text) (p : Nat) : Prop :=
  o.Written ∧ ∃ h g r, s = h ++ (o.text ++ g) ++ r ∧ byteLength (h ++ (o.text ++ g)) = p ∧ Gap g

theorem ownerAt?_eq_some_iff {s : Text} {p : Nat} {o : Owner} :
    ownerAt? s p = some o ↔ StandsBefore o s p := by
  rw [ownerAt?, Option.bind_eq_some_iff]
  constructor
  · rintro ⟨k, hk, ho⟩
    obtain ⟨hs, hp⟩ := cutAt?_eq_some_iff.1 hk
    obtain ⟨hwritten, h, g, hbefore, hg⟩ := owner?_eq_some_iff.1 ho
    rw [hbefore] at hs hp
    exact ⟨hwritten, h, g, k.after, hs, hp, hg⟩
  · rintro ⟨hwritten, h, g, r, hs, hp, hg⟩
    exact ⟨⟨h ++ (o.text ++ g), r⟩, cutAt?_eq_some_iff.2 ⟨hs, hp⟩,
      owner?_eq_some_iff.2 ⟨hwritten, h, g, rfl, hg⟩⟩

/-- The owner of the group at an offset is the one that the grammar has in front of it, and where the
    grammar has none, the group has no owner. -/
theorem ownerAt?_iff_standsBefore (s : Text) (p : Nat) :
    (∀ o, ownerAt? s p = some o ↔ StandsBefore o s p) ∧
      (ownerAt? s p = none ↔ ¬ ∃ o, StandsBefore o s p) := by
  refine ⟨fun o => ownerAt?_eq_some_iff, ?_⟩
  rw [Option.eq_none_iff_forall_ne_some, not_exists]
  exact forall_congr' fun o => not_congr ownerAt?_eq_some_iff

end Text

end TidyTex
