import TidyTex.Text.Search

/-! How often and where one text occurs in another.

    Counting goes along the text and looks at each place whether the needle starts there
    (`occurrences_cons`), and so does listing: all the offsets come, in increasing order
    (`mem_offsets_iff`, `pairwise_offsetsFrom`). A place that no occurrence goes across splits the
    count and the numbering (`NoneAcross`). Such a place is in front of a character that the needle
    does not have, or has at its head alone, and behind an occurrence of a needle that does not have
    its head twice. -/

namespace TidyTex.Text

variable {needle : Text}

/-- The number of occurrences of `needle`. -/
def occurrences (needle s : Text) : Nat := (offsets needle s).length

theorem length_offsetsFrom (needle s : Text) (p q : Nat) :
    (offsetsFrom needle p s).length = (offsetsFrom needle q s).length := by
  induction s generalizing p q with
  | nil => by_cases h : needle = [] <;> simp [offsetsFrom, h]
  | cons c s ih =>
    rw [offsetsFrom, offsetsFrom]
    split
    · rw [List.length_cons, List.length_cons, ih]
    · exact ih _ _

theorem occurrences_nil (h : needle ≠ []) : occurrences needle [] = 0 := by
  simp [occurrences, offsets, offsetsFrom, h]

theorem occurrences_cons (needle : Text) (c : Char) (s : Text) :
    occurrences needle (c :: s) =
      occurrences needle s + if needle <+: c :: s then 1 else 0 := by
  have hshift := length_offsetsFrom needle s c.utf8Size 0
  by_cases h : needle <+: c :: s
  · rw [if_pos h, occurrences, offsets, offsetsFrom, Nat.zero_add,
      if_pos (after?_isSome_iff.2 h), List.length_cons, hshift, occurrences, offsets]
  · rw [if_neg h, occurrences, offsets, offsetsFrom, Nat.zero_add,
      if_neg (mt after?_isSome_iff.1 h), hshift, occurrences, offsets, Nat.add_zero]

/-- At a character that is not the head of the needle no occurrence starts. -/
theorem occurrences_cons_of_ne {a c : Char} {w s : Text} (h : a ≠ c) :
    occurrences (a :: w) (c :: s) = occurrences (a :: w) s := by
  rw [occurrences_cons, if_neg fun hp => h (List.cons_prefix_cons.1 hp).1, Nat.add_zero]

theorem occurrences_append_of_not_mem {a : Char} {w x : Text} (h : a ∉ x) (s : Text) :
    occurrences (a :: w) (x ++ s) = occurrences (a :: w) s := by
  induction x with
  | nil => rfl
  | cons c x ih =>
    rw [List.mem_cons, not_or] at h
    rw [List.cons_append, occurrences_cons_of_ne h.1, ih h.2]

theorem occurrences_eq_zero_iff {s : Text} (h : needle ≠ []) :
    occurrences needle s = 0 ↔ ¬ needle <:+: s := by
  induction s with
  | nil => simp [occurrences_nil h, h]
  | cons c s ih =>
    rw [occurrences_cons, List.infix_cons_iff, Nat.add_eq_zero_iff, ih]
    by_cases hp : needle <+: c :: s <;> simp [hp]

/-- A text without the needle has no occurrences to list. -/
theorem offsetsFrom_eq_nil {s : Text} (h : needle ≠ []) (hs : ¬ needle <:+: s) (p : Nat) :
    offsetsFrom needle p s = [] := by
  have hzero := (occurrences_eq_zero_iff h).2 hs
  exact List.length_eq_zero_iff.1 ((length_offsetsFrom needle s p 0).trans hzero)

theorem findAll_eq_nil {s : Text} (h : needle ≠ []) (hs : ¬ needle <:+: s) :
    findAll needle s = [] := by
  rw [findAll, if_neg h, offsets, offsetsFrom_eq_nil h hs, List.take_nil]

/-- Occurrences are listed by their offsets as they are counted for cutting. -/
theorem getElem?_offsetsFrom (needle s : Text) (p n : Nat) :
    (offsetsFrom needle p s)[n]? = (cutNth? needle n s).map fun k => p + byteLength k.before := by
  induction s generalizing p n with
  | nil => by_cases h : needle = [] <;> cases n <;> simp [offsetsFrom, cutNth?, h]
  | cons c s ih =>
    have hprepend : ∀ k? : Option Cut, (k?.map (·.prepend [c])).map
        (fun k => p + byteLength k.before) =
          k?.map fun k => p + c.utf8Size + byteLength k.before := by
      intro k?
      cases k? <;> simp [Nat.add_assoc]
    rw [offsetsFrom]
    cases h : after? needle (c :: s) with
    | some t =>
      cases n with
      | zero => simp [cutNth?, h]
      | succ n => simp only [cutNth?, h, Option.isSome_some, if_true, List.getElem?_cons_succ, ih,
          hprepend]
    | none =>
      cases n with
      | zero => simp [cutNth?, h, ih, hprepend]
      | succ n => simp [cutNth?, h, ih, hprepend]

/-- A text has an occurrence of `needle` that starts at byte offset `p`. -/
def OccursAt (needle s : Text) (p : Nat) : Prop :=
  ∃ a b, s = a ++ (needle ++ b) ∧ byteLength a = p

/-- An occurrence starts at the head of a text or behind its first character. -/
theorem occursAt_cons_iff {c : Char} {s : Text} {p : Nat} :
    OccursAt needle (c :: s) p ↔
      p = 0 ∧ needle <+: c :: s ∨ ∃ q, OccursAt needle s q ∧ p = c.utf8Size + q := by
  constructor
  · rintro ⟨_ | ⟨d, a⟩, b, hs, rfl⟩
    · exact Or.inl ⟨rfl, b, hs.symm⟩
    · obtain ⟨rfl, rfl⟩ := List.cons.inj hs
      exact Or.inr ⟨byteLength a, ⟨a, b, rfl, rfl⟩, rfl⟩
  · rintro (⟨rfl, b, hb⟩ | ⟨q, ⟨a, b, rfl, rfl⟩, rfl⟩)
    · exact ⟨[], b, hb.symm, rfl⟩
    · exact ⟨c :: a, b, rfl, rfl⟩

theorem mem_offsetsFrom_cons {c : Char} {s : Text} {p q : Nat} :
    q ∈ offsetsFrom needle p (c :: s) ↔
      q = p ∧ needle <+: c :: s ∨ q ∈ offsetsFrom needle (p + c.utf8Size) s := by
  rw [offsetsFrom]
  split
  · next h => simp [after?_isSome_iff.1 h]
  · next h => simp [mt after?_isSome_iff.2 h]

/-- The listing of a text that starts at offset `p` has the offsets of its occurrences and no
    others. -/
theorem mem_offsetsFrom_iff {s : Text} {p q : Nat} :
    q ∈ offsetsFrom needle p s ↔ ∃ d, OccursAt needle s d ∧ q = p + d := by
  induction s generalizing p with
  | nil => by_cases h : needle = [] <;> simp [offsetsFrom, OccursAt, h]
  | cons c s ih =>
    simp only [mem_offsetsFrom_cons, ih, occursAt_cons_iff]
    constructor
    · rintro (⟨rfl, hp⟩ | ⟨e, he, rfl⟩)
      · exact ⟨0, Or.inl ⟨rfl, hp⟩, rfl⟩
      · exact ⟨c.utf8Size + e, Or.inr ⟨e, he, rfl⟩, Nat.add_assoc p _ e⟩
    · rintro ⟨d, ⟨rfl, hp⟩ | ⟨e, he, rfl⟩, rfl⟩
      · exact Or.inl ⟨rfl, hp⟩
      · exact Or.inr ⟨e, he, (Nat.add_assoc p _ e).symm⟩

theorem mem_offsets_iff {s : Text} {p : Nat} : p ∈ offsets needle s ↔ OccursAt needle s p := by
  simp [offsets, mem_offsetsFrom_iff]

/-- The listing goes from left to right and has no offset twice. -/
theorem pairwise_offsetsFrom (needle s : Text) (p : Nat) :
    (offsetsFrom needle p s).Pairwise (· < ·) := by
  induction s generalizing p with
  | nil => by_cases h : needle = [] <;> simp [offsetsFrom, h]
  | cons c s ih =>
    rw [offsetsFrom]
    split
    · refine List.pairwise_cons.2 ⟨?_, ih _⟩
      intro q hq
      obtain ⟨d, -, rfl⟩ := mem_offsetsFrom_iff.1 hq
      have hpos := c.utf8Size_pos
      omega
    · exact ih _

/-- When there is no occurrence with some number, there is none with a larger one. -/
theorem cutNth?_eq_none_of_le {s : Text} {m n : Nat} (hm : cutNth? needle m s = none) (h : m ≤ n) :
    cutNth? needle n s = none := by
  have hnone : ∀ n, cutNth? needle n s = none ↔ (offsets needle s).length ≤ n := by
    intro n
    rw [← List.getElem?_eq_none_iff, offsets, getElem?_offsetsFrom, Option.map_eq_none_iff]
  rw [hnone] at hm ⊢
  omega

/-- Behind the first occurrence the listing goes on one character further. -/
theorem offsetsFrom_of_cutFirst? {s u : Text} {k : Cut} {c : Char} (h : cutFirst? needle s = some k)
    (hu : needle ++ k.after = c :: u) (p : Nat) :
    offsetsFrom needle p s = (p + byteLength k.before) ::
      offsetsFrom needle (p + byteLength k.before + c.utf8Size) u := by
  induction s generalizing k p with
  | nil =>
    simp only [cutFirst?, cutNth?] at h
    split at h <;> cases h
    next hnil => simp [hnil] at hu
  | cons d s ih =>
    simp only [cutFirst?, cutNth?] at h ih
    cases ht : after? needle (d :: s) with
    | some t =>
      simp only [ht, Option.some.injEq] at h
      subst h
      rw [← after?_eq_some_iff.1 ht] at hu
      cases hu
      simp [offsetsFrom, ht]
    | none =>
      simp only [ht] at h
      obtain ⟨j, hj, rfl⟩ := Option.map_eq_some_iff.1 h
      rw [offsetsFrom, ht, Option.isSome_none, if_neg Bool.false_ne_true, ih hj hu,
        Cut.before_prepend, byteLength_append, byteLength_cons, byteLength_nil, Nat.add_zero,
        Nat.add_assoc p]

/-- What does not have a character begins a text before that character, if at all. -/
theorem isPrefix_append_cons_iff {c : Char} {w x y : Text} (hc : c ∉ w) :
    w <+: x ++ c :: y ↔ w <+: x := by
  induction w generalizing x with
  | nil => simp
  | cons a w ih =>
    rw [List.mem_cons, not_or] at hc
    cases x with
    | nil =>
      rw [List.nil_append, List.cons_prefix_cons, List.prefix_nil]
      exact iff_of_false (fun h => hc.1 h.1.symm) (List.cons_ne_nil a w)
    | cons b x => rw [List.cons_append, List.cons_prefix_cons, List.cons_prefix_cons, ih hc.2]

/-- An occurrence of what does not have a character stands before that character or behind it. -/
theorem append_cons_cases {c : Char} {w x y a b : Text} (hc : c ∉ w) (hne : w ≠ [])
    (h : x ++ c :: y = a ++ (w ++ b)) :
    (∃ b', x = a ++ (w ++ b') ∧ b = b' ++ c :: y) ∨
      ∃ a', a = x ++ c :: a' ∧ y = a' ++ (w ++ b) := by
  rcases List.append_eq_append_iff.1 h with ⟨d, rfl, hd⟩ | ⟨d, rfl, hd⟩
  · cases d with
    | nil =>
      cases w with
      | nil => exact absurd rfl hne
      | cons e w => exact absurd (List.mem_cons.2 (Or.inl (List.cons.inj hd).1)) hc
    | cons e d =>
      obtain ⟨rfl, rfl⟩ := List.cons.inj hd
      exact Or.inr ⟨d, rfl, rfl⟩
  · have hp : w <+: d ++ c :: y := ⟨b, hd⟩
    obtain ⟨e, rfl⟩ := (isPrefix_append_cons_iff hc).1 hp
    rw [List.append_assoc, List.append_cancel_left_eq] at hd
    exact Or.inl ⟨e, rfl, hd⟩

/-- What has a character at its head at most begins a longer text before that character. -/
theorem cons_isPrefix_append_cons_iff {a b c : Char} {w x y : Text} (hc : c ∉ w) :
    a :: w <+: b :: (x ++ c :: y) ↔ a :: w <+: b :: x := by
  rw [List.cons_prefix_cons, List.cons_prefix_cons, isPrefix_append_cons_iff hc]

/-- What does not have its head twice occurs first where none stands before it. -/
theorem cutFirst?_append_of_not_isInfix {a : Char} {w : Text} (ha : a ∉ w) {x : Text}
    (hx : ¬ a :: w <:+: x) (y : Text) :
    cutFirst? (a :: w) (x ++ (a :: w ++ y)) = some ⟨x, y⟩ := by
  induction x with
  | nil => exact cutFirst?_append (a :: w) y
  | cons c x ih =>
    rw [List.infix_cons_iff, not_or] at hx
    have hnone : ¬ a :: w <+: c :: (x ++ (a :: w ++ y)) :=
      mt (cons_isPrefix_append_cons_iff ha).1 hx.1
    rw [List.cons_append, cutFirst?_cons_of_not_isPrefix hnone, ih hx.2]
    rfl

/-- Whether no occurrence of `needle` that begins in `x` ends in `y`. -/
def NoneAcross (needle x y : Text) : Prop :=
  ∀ u v, x = u ++ v → v ≠ [] → needle <+: v ++ y → needle <+: v

theorem noneAcross_nil (needle x : Text) : NoneAcross needle x [] := by
  rintro u v - - h
  rwa [List.append_nil] at h

/-- No occurrence goes across a character that the needle has at its head at most. -/
theorem noneAcross_cons {a c : Char} {w : Text} (hc : c ∉ w) (x y : Text) :
    NoneAcross (a :: w) x (c :: y) := by
  rintro u (_ | ⟨b, v⟩) - hne h
  · exact absurd rfl hne
  · rwa [List.cons_append, cons_isPrefix_append_cons_iff hc] at h

/-- No occurrence goes across the end of another one, if the needle does not have its head twice. -/
theorem noneAcross_append {a : Char} {w : Text} (ha : a ∉ w) (x y : Text) :
    NoneAcross (a :: w) (x ++ a :: w) y := by
  intro u v huv hne h
  rcases List.append_eq_append_iff.1 huv with ⟨d, -, hd⟩ | ⟨d, -, rfl⟩
  · cases d with
    | nil => exact ⟨[], by simpa using hd⟩
    | cons e d =>
      obtain ⟨-, rfl⟩ := List.cons.inj hd
      obtain ⟨b, v, rfl⟩ := List.exists_cons_of_ne_nil hne
      obtain ⟨rfl, -⟩ := List.cons_prefix_cons.1 h
      simp at ha
  · exact List.prefix_of_prefix_length_le h (List.prefix_append _ y) (by simp)

namespace NoneAcross

variable {x y : Text} {c : Char}

theorem tail (h : NoneAcross needle (c :: x) y) : NoneAcross needle x y :=
  fun u v hx => h (c :: u) v (congrArg (c :: ·) hx)

theorem isPrefix_iff (h : NoneAcross needle (c :: x) y) :
    needle <+: c :: (x ++ y) ↔ needle <+: c :: x :=
  ⟨h [] (c :: x) rfl (List.cons_ne_nil c x), fun hp => hp.trans (List.prefix_append (c :: x) y)⟩

/-- On either side of a place that none goes across stands every occurrence. -/
theorem append_cases (h : NoneAcross needle x y) {a t : Text} (hs : x ++ y = a ++ (needle ++ t)) :
    (∃ u, x = a ++ (needle ++ u) ∧ t = u ++ y) ∨ ∃ u, a = x ++ u ∧ y = u ++ (needle ++ t) := by
  rcases List.append_eq_append_iff.1 hs with ⟨d, rfl, rfl⟩ | ⟨d, rfl, hd⟩
  · exact Or.inr ⟨d, rfl, rfl⟩
  · by_cases hne : d = []
    · subst hne
      exact Or.inr ⟨[], by simp, by simpa using hd.symm⟩
    · obtain ⟨u, rfl⟩ := h a d rfl hne ⟨t, hd⟩
      rw [List.append_assoc, List.append_cancel_left_eq] at hd
      exact Or.inl ⟨u, rfl, hd⟩

/-- Occurrences are counted on either side of a place that none goes across. -/
theorem occurrences_append (h : NoneAcross needle x y) (hne : needle ≠ []) :
    occurrences needle (x ++ y) = occurrences needle x + occurrences needle y := by
  induction x with
  | nil => simp [occurrences_nil hne]
  | cons c x ih =>
    rw [List.cons_append, occurrences_cons, ih h.tail, occurrences_cons needle c x]
    simp only [h.isPrefix_iff]
    omega

/-- Behind such a place the numbers of occurrences go on from those before it. -/
theorem cutNth?_append_add (h : NoneAcross needle x y) (hne : needle ≠ []) (n : Nat) :
    cutNth? needle (occurrences needle x + n) (x ++ y) =
      (cutNth? needle n y).map (·.prepend x) := by
  induction x with
  | nil => cases hk : cutNth? needle n y <;> simp [occurrences_nil hne, hk, Cut.prepend]
  | cons c x ih =>
    have hmap : ∀ k? : Option Cut,
        (k?.map (·.prepend x)).map (·.prepend [c]) = k?.map (·.prepend (c :: x)) := by
      intro k?
      cases k? <;> simp
    by_cases hp : needle <+: c :: x
    · have hsome := after?_isSome_iff.2 (h.isPrefix_iff.2 hp)
      rw [occurrences_cons, if_pos hp, Nat.add_right_comm, List.cons_append, cutNth?, if_pos hsome,
        ih h.tail, hmap]
    · have hnone := after?_eq_none_iff.2 (mt h.isPrefix_iff.1 hp)
      rw [occurrences_cons, if_neg hp, Nat.add_zero, List.cons_append, ← hmap, ← ih h.tail]
      cases hn : occurrences needle x + n <;> simp [cutNth?, hnone]

/-- Before it they are those of the text that ends there. -/
theorem cutNth?_append_of_lt (h : NoneAcross needle x y) (hne : needle ≠ []) {n : Nat}
    (hn : n < occurrences needle x) :
    cutNth? needle n (x ++ y) = (cutNth? needle n x).map fun k => ⟨k.before, k.after ++ y⟩ := by
  induction x generalizing n with
  | nil => simp [occurrences_nil hne] at hn
  | cons c x ih =>
    have hmap : ∀ k? : Option Cut, (k?.map fun k => Cut.mk k.before (k.after ++ y)).map
        (·.prepend [c]) = (k?.map (·.prepend [c])).map fun k => ⟨k.before, k.after ++ y⟩ := by
      intro k?
      cases k? <;> simp [Cut.prepend]
    by_cases hp : needle <+: c :: x
    · obtain ⟨t, ht⟩ := hp
      have hx : after? needle (c :: x) = some t := after?_eq_some_iff.2 ht.symm
      have hxy : after? needle (c :: (x ++ y)) = some (t ++ y) :=
        after?_eq_some_iff.2 (by rw [← List.cons_append, ← ht, List.append_assoc])
      rw [occurrences_cons, if_pos ⟨t, ht⟩] at hn
      cases n with
      | zero => simp [cutNth?, hx, hxy]
      | succ n =>
        simp only [List.cons_append, cutNth?, hx, hxy, Option.isSome_some, if_true]
        rw [ih h.tail (by omega), hmap]
    · have hnone := after?_eq_none_iff.2 hp
      have hnone' := after?_eq_none_iff.2 (mt h.isPrefix_iff.1 hp)
      rw [occurrences_cons, if_neg hp] at hn
      cases n <;> simp only [List.cons_append, cutNth?, hnone, hnone', Option.isSome_none, if_false,
        Bool.false_eq_true] <;> rw [ih h.tail (by omega), hmap]

end NoneAcross

/-- Occurrences are counted on both sides of a character that the needle has at its head at
    most. -/
theorem occurrences_append_cons {a c : Char} {w : Text} (hc : c ∉ w) (x y : Text) :
    occurrences (a :: w) (x ++ c :: y) =
      occurrences (a :: w) x + occurrences (a :: w) (c :: y) :=
  (noneAcross_cons hc x y).occurrences_append (List.cons_ne_nil a w)

/-- What has a character at its head at most does not occur across that character. -/
theorem infix_append_cons_iff {a c : Char} {w x y : Text} (hc : c ∉ w) :
    a :: w <:+: x ++ c :: y ↔ a :: w <:+: x ∨ a :: w <:+: c :: y := by
  induction x with
  | nil =>
    have hnil : ¬ a :: w <:+: [] := fun h => List.cons_ne_nil a w (List.infix_nil.1 h)
    rw [List.nil_append, or_iff_right hnil]
  | cons b x ih =>
    rw [List.cons_append, List.infix_cons_iff, cons_isPrefix_append_cons_iff hc, ih, ← or_assoc,
      ← List.infix_cons_iff]

end TidyTex.Text
