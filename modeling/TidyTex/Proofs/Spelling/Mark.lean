import TidyTex.Spelling
import TidyTex.Proofs.Replacement

/-! Marks that come up while marks are deleted.

    Each mark is deleted in the whole text before the next one. Where it stood, what was on its left
    runs together with what was on its right, and the two can make up a mark themselves. If that
    mark comes later it is deleted in its turn, but if it was deleted before, or is the same one, it
    stays:

        l$atex        ──▶                 $ is deleted before latex
        la\lefttex    ──▶ latex           \left is deleted after latex
        \le⏎ft(x      ──▶ \left(x         the line end is deleted after \left
        latlatexex    ──▶ latex           the same mark

    In no other way is a mark left over. A deletion takes out all there is of a mark, so whatever is
    there of it in the end ran together then or later, and the marks after that have left it as it
    is (`isInfix_deleteCosmetics_iff`). -/

namespace TidyTex

namespace Replacement

open Text

/-- The replacement takes its old text out, and the old text does not have its head twice. -/
structure Deletes (q : Replacement) : Prop where
  new_eq : q.new = []
  head_not_mem : q.old.head q.old_ne_nil ∉ q.old.tail

variable {q : Replacement} {table : List Replacement} {m t u v w x y : Text}

/-! ### What one deletion leaves -/

/-- The old text is taken out wherever it stands, since it cannot overlap itself. -/
theorem Deletes.apply_append_old (hq : Deletes q) (x y : Text) :
    q.apply (x ++ (q.old ++ y)) = q.apply x ++ q.apply y := by
  obtain ⟨a, w, hold⟩ := List.exists_cons_of_ne_nil q.old_ne_nil
  have hhead : a ∉ w := by simpa only [hold, List.head_cons, List.tail_cons] using hq.head_not_mem
  have hnone : NoneAcross q.old x (q.old ++ y) := by
    rw [hold]
    exact noneAcross_cons hhead x (w ++ y)
  rw [apply_append_of_noneAcross hnone, apply_append, hq.new_eq, List.nil_append]

/-- A deletion reaches each place inside what it leaves at a place in the text, where it keeps the
    character that follows. -/
theorem Deletes.exists_append (hq : Deletes q) (hw : w ≠ []) (h : q.apply t = u ++ w) :
    ∃ x y, t = x ++ y ∧ q.apply y = w ∧ ¬ q.old <+: y ∧
      ∀ z, z <+: y → q.apply (x ++ z) = u ++ q.apply z := by
  refine Rule.reading_induction (r := q.rule) (P := fun t => ∀ u, q.apply t = u ++ w → ∃ x y,
    t = x ++ y ∧ q.apply y = w ∧ ¬ q.old <+: y ∧ ∀ z, z <+: y → q.apply (x ++ z) = u ++ q.apply z)
    ?_ ?_ ?_ t u h
  · intro u h
    rw [apply_nil] at h
    exact absurd (List.append_eq_nil_iff.1 h.symm).2 hw
  · intro c t hfire ih u h
    have hct : ¬ q.old <+: c :: t := not_isPrefix_of_fire?_eq_none hfire
    cases u with
    | nil => exact ⟨[], c :: t, rfl, h, hct, fun z _ => rfl⟩
    | cons d u =>
      rw [apply_cons_of_not_isPrefix hct, List.cons_append, List.cons.injEq] at h
      obtain ⟨rfl, h⟩ := h
      obtain ⟨x, y, rfl, hy, hnone, hz⟩ := ih u h
      refine ⟨c :: x, y, rfl, hy, hnone, ?_⟩
      intro z hzy
      have hcz : ¬ q.old <+: c :: (x ++ z) := fun hold =>
        hct (hold.trans (List.cons_prefix_cons.2 ⟨rfl, (List.prefix_append_right_inj x).2 hzy⟩))
      rw [List.cons_append, apply_cons_of_not_isPrefix hcz, hz z hzy, List.cons_append]
  · intro t out rest hfire ih u h
    obtain ⟨x, rfl, hw⟩ := Rule.exists_writes hfire
    rw [(writes_rule hw).1] at h ⊢
    rw [apply_append, hq.new_eq, List.nil_append] at h
    obtain ⟨x, y, rfl, hy, hnone, hz⟩ := ih u h
    refine ⟨q.old ++ x, y, by rw [List.append_assoc], hy, hnone, ?_⟩
    intro z hzy
    rw [List.append_assoc, apply_append, hq.new_eq, List.nil_append, hz z hzy]

/-- What a deletion leaves at the start was there before, or the old text was taken out of its
    inside. -/
theorem Deletes.start_cases (hq : Deletes q) (hm : m ≠ []) (hy : ¬ q.old <+: y)
    (h : q.apply y = m ++ v) :
    (∃ z, y = m ++ z ∧ q.apply z = v) ∨ ∃ x z a b, y = x ++ (q.old ++ z) ∧ q.apply x = a ∧
      q.apply z = b ++ v ∧ a ≠ [] ∧ b ≠ [] ∧ m = a ++ b := by
  induction m generalizing y with
  | nil => exact absurd rfl hm
  | cons c m ih =>
    cases y with
    | nil => rw [apply_nil] at h; cases h
    | cons d y =>
      rw [apply_cons_of_not_isPrefix hy, List.cons_append, List.cons.injEq] at h
      obtain ⟨rfl, h⟩ := h
      have hcons : ∀ {x}, x <+: y → q.apply (d :: x) = d :: q.apply x := fun hx =>
        apply_cons_of_not_isPrefix fun hold => hy (hold.trans (List.cons_prefix_cons.2 ⟨rfl, hx⟩))
      by_cases hm : m = []
      · subst hm
        exact Or.inl ⟨y, rfl, h⟩
      · by_cases hold : q.old <+: y
        · obtain ⟨z, rfl⟩ := hold
          rw [apply_append, hq.new_eq, List.nil_append] at h
          refine Or.inr ⟨[d], z, [d], m, rfl, ?_, h, List.cons_ne_nil d [], hm, rfl⟩
          rw [hcons List.nil_prefix, apply_nil]
        · rcases ih hm hold h with ⟨z, rfl, hz⟩ | ⟨x, z, a, b, rfl, rfl, hz, -, hb, rfl⟩
          · exact Or.inl ⟨z, rfl, hz⟩
          · exact Or.inr ⟨d :: x, z, d :: q.apply x, b, rfl, hcons (List.prefix_append x _), hz,
              List.cons_ne_nil d _, hb, rfl⟩

/-- What a deletion leaves anywhere was there before, or the old text was taken out of its
    inside. -/
theorem Deletes.cases (hq : Deletes q) (hm : m ≠ []) (h : q.apply t = u ++ (m ++ v)) :
    (∃ x y, t = x ++ (m ++ y) ∧ q.apply x = u ∧ q.apply y = v) ∨
      ∃ x y a b, t = x ++ (q.old ++ y) ∧ q.apply x = u ++ a ∧ q.apply y = b ++ v ∧
        a ≠ [] ∧ b ≠ [] ∧ m = a ++ b := by
  obtain ⟨x, y, rfl, hy, hnone, happly⟩ :=
    hq.exists_append (List.append_ne_nil_of_left_ne_nil hm v) h
  rcases hq.start_cases hm hnone hy with ⟨z, rfl, hz⟩ | ⟨x', z, a, b, rfl, rfl, hz, ha, hb, hab⟩
  · have hx := happly [] List.nil_prefix
    rw [apply_nil, List.append_nil, List.append_nil] at hx
    exact Or.inl ⟨x, z, rfl, hx, hz⟩
  · exact Or.inr ⟨x ++ x', z, q.apply x', b, by rw [List.append_assoc],
      happly x' (List.prefix_append x' _), hz, ha, hb, hab⟩

/-! ### What a table of deletions leaves -/

/-- The entries of a table, one after the other, take nothing out of `m` between `u` and `v` nor
    anything that goes over one of its ends. -/
def Untouched (m : Text) : List Replacement → Text → Text → Prop
  | [], _, _ => True
  | q :: table, u, v =>
    q.apply (u ++ (m ++ v)) = q.apply u ++ (m ++ q.apply v) ∧
      Untouched m table (q.apply u) (q.apply v)

/-- Somewhere in the text stands `m` and remains there. -/
def Remains (m : Text) (table : List Replacement) (t : Text) : Prop :=
  ∃ u v, t = u ++ (m ++ v) ∧ Untouched m table u v

/-- While the entries of a table are taken out of a text, the two sides of an old text run together
    to `m`, and that remains there. -/
inductive RunsTogether (m : Text) : List Replacement → Text → Prop
  | here {q : Replacement} {table : List Replacement} {x y u a b v : Text}
      (hx : q.apply x = u ++ a) (hy : q.apply y = b ++ v) (ha : a ≠ []) (hb : b ≠ [])
      (hm : m = a ++ b) (h : Untouched m table u v) :
      RunsTogether m (q :: table) (x ++ (q.old ++ y))
  | later {q : Replacement} {table : List Replacement} {t : Text}
      (h : RunsTogether m table (q.apply t)) : RunsTogether m (q :: table) t

/-- What is left of some text was in it and remained, or it ran together on the way. -/
theorem isInfix_applyAll_iff (htable : ∀ q ∈ table, Deletes q) (hm : m ≠ []) (t : Text) :
    m <:+: applyAll table t ↔ Remains m table t ∨ RunsTogether m table t := by
  induction table generalizing t with
  | nil =>
    constructor
    · rintro ⟨u, v, rfl⟩
      exact Or.inl ⟨u, v, List.append_assoc u m v, trivial⟩
    · rintro (⟨u, v, rfl, -⟩ | h)
      · exact ⟨u, v, List.append_assoc u m v⟩
      · cases h
  | cons q table ih =>
    rw [List.forall_mem_cons] at htable
    rw [applyAll_cons, ih htable.2]
    constructor
    · rintro (⟨u, v, huv, h⟩ | h)
      · rcases htable.1.cases hm huv with
          ⟨x, y, rfl, rfl, rfl⟩ | ⟨x, y, a, b, rfl, hx, hy, ha, hb, hab⟩
        · exact Or.inl ⟨x, y, rfl, huv, h⟩
        · exact Or.inr (RunsTogether.here hx hy ha hb hab h)
      · exact Or.inr (RunsTogether.later h)
    · rintro (⟨u, v, rfl, huv, h⟩ | h)
      · exact Or.inl ⟨q.apply u, q.apply v, huv, h⟩
      · cases h with
        | @here _ _ x y u a b v hx hy ha hb hab h =>
          refine Or.inl ⟨u, v, ?_, h⟩
          rw [htable.1.apply_append_old, hx, hy, hab]
          simp only [List.append_assoc]
        | later h => exact Or.inr h

/-- The old text of an entry does not remain. -/
theorem Deletes.not_remains (hq : Deletes q) (table : List Replacement) (t : Text) :
    ¬ Remains q.old (q :: table) t := by
  rintro ⟨u, v, -, h, -⟩
  rw [hq.apply_append_old] at h
  have hpos := List.length_pos_iff.2 q.old_ne_nil
  have hlength := congrArg List.length h
  simp only [List.length_append] at hlength
  omega

end Replacement

namespace Text

open Replacement

/-- Each mark is deleted, and none has its head twice. -/
theorem deletes_of_mem_cosmeticDeletions : ∀ q ∈ cosmeticDeletions, Deletes q := by
  have htable : ∀ q ∈ cosmeticDeletions,
      q.new = [] ∧ q.old.head q.old_ne_nil ∉ q.old.tail := by
    decide
  exact fun q hq => ⟨(htable q hq).1, (htable q hq).2⟩

/-- A mark is left over exactly if the two sides of a mark run together to it, while it or one of
    the marks after it is deleted, and what is deleted then leaves it as it is. -/
theorem isInfix_deleteCosmetics_iff {first last : List Replacement} {p : Replacement}
    (htable : cosmeticDeletions = first ++ p :: last) (s : Text) :
    p.old <:+: deleteCosmetics s ↔ RunsTogether p.old (p :: last) (applyAll first s) := by
  have hdeletes : ∀ q ∈ p :: last, Deletes q := fun q hq =>
    deletes_of_mem_cosmeticDeletions q (htable ▸ List.mem_append_right first hq)
  have hown := (hdeletes p List.mem_cons_self).not_remains last (applyAll first s)
  rw [deleteCosmetics, htable, applyAll_append, isInfix_applyAll_iff hdeletes p.old_ne_nil,
    or_iff_right hown]

/-- The line end is deleted after `\left`, so a `\left` with a line end in it is left over. -/
theorem runsTogether_left :
    cosmeticDeletions = cosmeticDeletions.take 5 ++
        .deletion (command "left") :: cosmeticDeletions.drop 6 ∧
      command "left" <:+: deleteCosmetics "\\le\nft(x".toList ∧
      RunsTogether (command "left") (.deletion (command "left") :: cosmeticDeletions.drop 6)
        (applyAll (cosmeticDeletions.take 5) "\\le\nft(x".toList) := by
  have htable : cosmeticDeletions = cosmeticDeletions.take 5 ++
      .deletion (command "left") :: cosmeticDeletions.drop 6 := rfl
  have hleft : command "left" <:+: deleteCosmetics "\\le\nft(x".toList := by decide +kernel
  exact ⟨htable, hleft, (isInfix_deleteCosmetics_iff htable _).1 hleft⟩

/-- So a text can have marks in it after all of them have been deleted. -/
theorem not_forall_not_isInfix_deleteCosmetics :
    ¬ ∀ s : Text, ∀ p ∈ cosmeticDeletions, ¬ p.old <:+: deleteCosmetics s := by
  intro h
  have hleft : ¬ ∀ p ∈ cosmeticDeletions, ¬ p.old <:+: deleteCosmetics "\\le\nft(x".toList := by
    decide +kernel
  exact hleft (h _)

end Text

end TidyTex
