import TidyTex.Text.Basic

/-! Looking for the occurrences of one text in another. Occurrences may overlap.

    An occurrence is returned as a cut: what comes before it and what comes after it. For
    `cutFirst?` and `cutLast?` the lemmas say that the cut is right, that there is one whenever the
    needle occurs, and that no other occurrence comes earlier or later. `offsets` lists where all of
    them start, and `findAll` the first hundred. -/

namespace TidyTex.Text

/-- The cut at occurrence number `n` of `needle`, counted from zero and from the left. -/
def cutNth? (needle : Text) : Nat → Text → Option Cut
  | 0, [] => if needle = [] then some ⟨[], []⟩ else none
  | _ + 1, [] => none
  | 0, c :: s =>
    match after? needle (c :: s) with
    | some t => some ⟨[], t⟩
    | none => (cutNth? needle 0 s).map (·.prepend [c])
  | n + 1, c :: s =>
    if (after? needle (c :: s)).isSome then (cutNth? needle n s).map (·.prepend [c])
    else (cutNth? needle (n + 1) s).map (·.prepend [c])

/-- The cut at the first occurrence of `needle`. -/
def cutFirst? (needle s : Text) : Option Cut := cutNth? needle 0 s

/-- The cut at the last occurrence of `needle`. -/
def cutLast? (needle : Text) : Text → Option Cut
  | [] => if needle = [] then some ⟨[], []⟩ else none
  | c :: s =>
    match cutLast? needle s with
    | some k => some (k.prepend [c])
    | none => (after? needle (c :: s)).map (⟨[], ·⟩)

/-- The byte offsets at which `needle` occurs, for a text that itself starts at offset `p`. -/
def offsetsFrom (needle : Text) (p : Nat) : Text → List Nat
  | [] => if needle = [] then [p] else []
  | c :: s =>
    if (after? needle (c :: s)).isSome then p :: offsetsFrom needle (p + c.utf8Size) s
    else offsetsFrom needle (p + c.utf8Size) s

/-- The byte offsets at which `needle` occurs, from left to right. -/
def offsets (needle s : Text) : List Nat := offsetsFrom needle 0 s

/-- The most occurrences that `findAll` lists. -/
def maxOccurrences : Nat := 100

/-- The byte offsets of the first hundred occurrences of `needle`; none for the empty needle. -/
def findAll (needle s : Text) : List Nat :=
  if needle = [] then [] else (offsets needle s).take maxOccurrences

/-- A cut at an occurrence leaves exactly the needle out. -/
theorem append_of_cutNth? {needle s : Text} {n : Nat} {k : Cut} (h : cutNth? needle n s = some k) :
    s = k.before ++ needle ++ k.after := by
  fun_induction cutNth? needle n s generalizing k with
  | case1 he => cases h; simp [he]
  | case2 => cases h
  | case3 => cases h
  | case4 c s t ht => cases h; simpa using after?_eq_some_iff.1 ht
  | case5 c s ht ih | case6 n c s ht ih | case7 n c s ht ih =>
    obtain ⟨j, hj, rfl⟩ := Option.map_eq_some_iff.1 h
    simpa using ih hj

theorem append_of_cutFirst? {needle s : Text} {k : Cut} (h : cutFirst? needle s = some k) :
    s = k.before ++ needle ++ k.after := append_of_cutNth? h

/-- What a text begins with occurs there first. -/
theorem cutFirst?_append (needle s : Text) : cutFirst? needle (needle ++ s) = some ⟨[], s⟩ := by
  have ht : after? needle (needle ++ s) = some s := after?_eq_some_iff.2 rfl
  cases h : needle ++ s with
  | nil =>
    obtain ⟨rfl, rfl⟩ := List.append_eq_nil_iff.1 h
    rfl
  | cons c u =>
    rw [h] at ht
    rw [cutFirst?, cutNth?, ht]

/-- A character at which the needle does not start is passed over. -/
theorem cutFirst?_cons_of_not_isPrefix {needle : Text} {c : Char} {s : Text}
    (h : ¬ needle <+: c :: s) :
    cutFirst? needle (c :: s) = (cutFirst? needle s).map (·.prepend [c]) := by
  rw [cutFirst?, cutNth?, after?_eq_none_iff.2 h]
  rfl

/-- What comes behind the first occurrence has no say in where it is. -/
theorem cutFirst?_before_append {needle s : Text} {k : Cut} (h : cutFirst? needle s = some k)
    (t : Text) : cutFirst? needle (k.before ++ (needle ++ t)) = some ⟨k.before, t⟩ := by
  induction s generalizing k with
  | nil =>
    simp only [cutFirst?, cutNth?] at h
    split at h <;> cases h
    exact cutFirst?_append needle t
  | cons c s ih =>
    by_cases hp : needle <+: c :: s
    · obtain ⟨u, hu⟩ := hp
      rw [← hu, cutFirst?_append] at h
      cases h
      exact cutFirst?_append needle t
    · rw [cutFirst?_cons_of_not_isPrefix hp] at h
      obtain ⟨j, hj, rfl⟩ := Option.map_eq_some_iff.1 h
      have hs : c :: (j.before ++ needle) <+: c :: s :=
        List.cons_prefix_cons.2 ⟨rfl, j.after, (append_of_cutFirst? hj).symm⟩
      have hp' : ¬ needle <+: c :: (j.before ++ (needle ++ t)) := by
        intro hp'
        refine hp (List.IsPrefix.trans (List.prefix_of_prefix_length_le hp' ⟨t, ?_⟩ ?_) hs)
        · simp
        · simp; omega
      simp [cutFirst?_cons_of_not_isPrefix hp', ih hj, Cut.prepend]

/-- Looking for a character passes over the others. -/
theorem cutFirst?_singleton_cons {c d : Char} (h : c ≠ d) (s : Text) :
    cutFirst? [d] (c :: s) = (cutFirst? [d] s).map (·.prepend [c]) :=
  cutFirst?_cons_of_not_isPrefix fun hp => h (List.cons_prefix_cons.1 hp).1.symm

/-- There is no first occurrence exactly when there is no occurrence. -/
theorem cutFirst?_eq_none_iff {needle s : Text} : cutFirst? needle s = none ↔ ¬ needle <:+: s := by
  induction s with
  | nil => simp [cutFirst?, cutNth?]
  | cons c s ih =>
    simp only [cutFirst?, cutNth?] at ih ⊢
    rw [List.infix_cons_iff]
    cases ht : after? needle (c :: s) with
    | some t =>
      have hp : needle <+: c :: s := after?_isSome_iff.1 (Option.isSome_of_eq_some ht)
      exact iff_of_false nofun (not_not_intro (Or.inl hp))
    | none =>
      have hp : ¬ needle <+: c :: s := after?_eq_none_iff.1 ht
      simp [hp, ih]

/-- No occurrence starts before the first one. -/
theorem length_before_le_of_cutFirst? {needle s : Text} {k : Cut} (h : cutFirst? needle s = some k)
    {a b : Text} (hs : s = a ++ needle ++ b) : k.before.length ≤ a.length := by
  induction s generalizing k a with
  | nil =>
    simp only [cutFirst?, cutNth?] at h
    split at h <;> cases h
    simp
  | cons c s ih =>
    simp only [cutFirst?, cutNth?] at h ih
    cases ht : after? needle (c :: s) with
    | some t => simp only [ht, Option.some.injEq] at h; subst h; simp
    | none =>
      simp only [ht] at h
      obtain ⟨j, hj, rfl⟩ := Option.map_eq_some_iff.1 h
      match a with
      | [] =>
        exact absurd ⟨b, hs.symm⟩ (after?_eq_none_iff.1 ht)
      | d :: a =>
        simp only [List.cons_append, List.cons.injEq] at hs
        simpa using ih hj hs.2

/-- The text before the first occurrence holds none. -/
theorem not_isInfix_before_cutFirst? {needle s : Text} {k : Cut} (hne : needle ≠ [])
    (h : cutFirst? needle s = some k) : ¬ needle <:+: k.before := by
  rintro ⟨a, b, hab⟩
  have hs := append_of_cutFirst? h
  rw [← hab, List.append_assoc (a ++ needle) b, List.append_assoc (a ++ needle)] at hs
  have hle := length_before_le_of_cutFirst? h hs
  have hpos := List.length_pos_iff.2 hne
  rw [← hab, List.length_append, List.length_append] at hle
  omega

theorem append_of_cutLast? {needle s : Text} {k : Cut} (h : cutLast? needle s = some k) :
    s = k.before ++ needle ++ k.after := by
  fun_induction cutLast? needle s generalizing k with
  | case1 he => cases h; simp [he]
  | case2 => cases h
  | case3 c s j hj ih => cases h; simpa using ih hj
  | case4 c s hn ih =>
    obtain ⟨t, ht, rfl⟩ := Option.map_eq_some_iff.1 h
    simpa using after?_eq_some_iff.1 ht

theorem cutLast?_eq_none_iff {needle s : Text} : cutLast? needle s = none ↔ ¬ needle <:+: s := by
  induction s with
  | nil => simp [cutLast?]
  | cons c s ih =>
    rw [List.infix_cons_iff, cutLast?]
    cases hl : cutLast? needle s with
    | some k =>
      have : needle <:+: s := Classical.byContradiction fun h => by simp [ih.2 h] at hl
      simp [this]
    | none =>
      have hs := ih.1 hl
      simp [hs, after?_eq_none_iff]

/-- An occurrence is the last one when none starts inside it or behind it. -/
theorem cutLast?_append_cons {c : Char} {w b : Text} (h : ¬ c :: w <:+: w ++ b) (a : Text) :
    cutLast? (c :: w) (a ++ (c :: w ++ b)) = some ⟨a, b⟩ := by
  induction a with
  | nil =>
    have ht : after? (c :: w) (c :: w ++ b) = some b := after?_eq_some_iff.2 rfl
    rw [List.cons_append] at ht
    rw [List.nil_append, List.cons_append, cutLast?, cutLast?_eq_none_iff.2 h, ht]
    rfl
  | cons d a ih =>
    rw [List.cons_append, cutLast?, ih]
    rfl

/-- No occurrence starts behind the last one. -/
theorem le_length_before_of_cutLast? {needle s : Text} {k : Cut} (h : cutLast? needle s = some k)
    {a b : Text} (hs : s = a ++ needle ++ b) : a.length ≤ k.before.length := by
  induction s generalizing k a with
  | nil =>
    have ha : a = [] := by simp_all
    simp [ha]
  | cons c s ih =>
    match a with
    | [] => exact Nat.zero_le _
    | d :: a =>
      simp only [List.cons_append, List.cons.injEq] at hs
      rw [cutLast?] at h
      cases hl : cutLast? needle s with
      | some j =>
        simp only [hl, Option.some.injEq] at h
        subst h
        simpa using ih hl hs.2
      | none => exact absurd ⟨a, b, hs.2.symm⟩ (cutLast?_eq_none_iff.1 hl)

/-- The text behind the last occurrence holds none. -/
theorem not_isInfix_after_cutLast? {needle s : Text} {k : Cut} (hne : needle ≠ [])
    (h : cutLast? needle s = some k) : ¬ needle <:+: k.after := by
  rintro ⟨a, b, hab⟩
  have hs := append_of_cutLast? h
  rw [← hab, ← List.append_assoc, ← List.append_assoc] at hs
  have hle := le_length_before_of_cutLast? h hs
  have hpos := List.length_pos_iff.2 hne
  rw [List.length_append, List.length_append] at hle
  omega

end TidyTex.Text
