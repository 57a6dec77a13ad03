import TidyTex.Text.Rule

/-! What a pass of a rule keeps.

    A pass leaves characters as they are and here and there writes one text where it has read
    another. Those pairs of texts are all that need be known of a rule (`Writes`): what is read off
    a text piece by piece is kept by a pass when it is kept by every pair. `pass_induction` is the
    induction behind such statements, and `filter_pass` and `forall_mem_pass` are two of them. A
    second pass has nothing to do when the rule writes each text again that it wrote, and does not
    apply anywhere else (`pass_pass`). And where every text that is written takes some size away or
    is the one that was read, a pass has nothing to do only if it writes what it has read wherever
    it comes to apply the rule (`pass_eq_self_iff_appliesAt`).

    A table keeps what its entries keep (`applyAll_induction`), it leaves none of the characters
    that it replaces and does not write (`not_mem_applyAll`), and if each entry shrinks what it
    finds, then a text that has not shrunk had nothing to find (`not_isInfix_of_size_le`). -/

namespace TidyTex

namespace Rule

variable {r : Rule}

/-- The rule can write `y` where it has read `x`. -/
def Writes (r : Rule) (x y : Text) : Prop := ∃ rest, r.fire? (x ++ rest) = some (y, rest)

/-- What a rule leaves to read is an end of the text, and what it has read is before that. -/
theorem exists_writes {s y rest : Text} (h : r.fire? s = some (y, rest)) :
    ∃ x, s = x ++ rest ∧ r.Writes x y := by
  obtain ⟨t, rfl, ht⟩ := fire?_eq_some_iff.1 h
  obtain ⟨u, rfl⟩ := r.body_suffix ht
  rw [← List.append_assoc] at h ⊢
  exact ⟨r.head ++ u, rfl, rest, h⟩

/-- What holds of the empty text holds of every text, if it comes to hold when one character more is
    kept and when the rule applies before a text. -/
theorem reading_induction {P : Text → Prop} (nil : P [])
    (keep : ∀ {c s}, r.fire? (c :: s) = none → P s → P (c :: s))
    (write : ∀ {s y rest}, r.fire? s = some (y, rest) → P rest → P s) (s : Text) : P s := by
  induction hn : s.length using Nat.strongRecOn generalizing s with
  | _ n ih =>
    cases s with
    | nil => exact nil
    | cons c s =>
      cases h : r.fire? (c :: s) with
      | none => exact keep h (ih s.length (by rw [← hn]; exact Nat.lt_succ_self _) s rfl)
      | some out =>
        have hlt := length_lt_of_fire? h
        exact write h (ih out.2.length (by omega) out.2 rfl)

/-- What holds of the empty text, and goes on to hold when a character is kept and when a text is
    written, holds of a text and its pass. -/
theorem pass_induction {R : Text → Text → Prop} (nil : R [] [])
    (keep : ∀ {c s}, r.fire? (c :: s) = none → R s (r.pass s) → R (c :: s) (c :: r.pass s))
    (write : ∀ {x y rest}, r.Writes x y → R rest (r.pass rest) →
      R (x ++ rest) (y ++ r.pass rest)) (s : Text) : R s (r.pass s) := by
  refine reading_induction (r := r) (P := fun s => R s (r.pass s)) ?_ ?_ ?_ s
  · rw [pass_nil]
    exact nil
  · intro c s h ih
    rw [pass_cons_of_fire? h]
    exact keep h ih
  · intro s y rest h ih
    obtain ⟨x, hx, hw⟩ := exists_writes h
    rw [pass_of_fire? h, hx]
    exact write hw ih

/-- A pass keeps those characters of a text that no pair of texts tells apart. -/
theorem filter_pass {p : Char → Bool} (h : ∀ {x y}, r.Writes x y → y.filter p = x.filter p)
    (s : Text) : (r.pass s).filter p = s.filter p := by
  refine pass_induction (R := fun s t => t.filter p = s.filter p) rfl ?_ ?_ s
  · intro c s _ ih
    rw [List.filter_cons, List.filter_cons, ih]
  · intro x y rest hw ih
    rw [List.filter_append, List.filter_append, h hw, ih]

/-- A pass over characters of some kind writes characters of that kind, if every pair of texts
    does. -/
theorem forall_mem_pass {P : Char → Prop}
    (h : ∀ {x y}, r.Writes x y → (∀ c ∈ x, P c) → ∀ c ∈ y, P c) {s : Text}
    (hs : ∀ c ∈ s, P c) : ∀ c ∈ r.pass s, P c := by
  refine pass_induction (R := fun s t => (∀ c ∈ s, P c) → ∀ c ∈ t, P c) ?_ ?_ ?_ s hs
  · exact id
  · intro c s _ ih hs
    rw [List.forall_mem_cons] at hs ⊢
    exact ⟨hs.1, ih hs.2⟩
  · intro x y rest hw ih hs
    rw [List.forall_mem_append] at hs ⊢
    exact ⟨h hw hs.1, ih hs.2⟩

/-- A pass changes nothing where the rule applies nowhere. -/
theorem pass_eq_self_of_forall {s : Text} (h : ∀ t, t <:+ s → r.fire? t = none) :
    r.pass s = s := by
  induction s with
  | nil => exact pass_nil r
  | cons c s ih =>
    have htail : r.pass s = s := ih fun t ht => h t (ht.trans (List.suffix_cons c s))
    rw [pass_cons_of_fire? (h _ List.suffix_rfl), htail]

/-! ### What a second pass finds -/

/-- The beginning of a pass was there before, or the first text that the pass has written begins in
    it. -/
theorem pass_eq_append_cases {x t s : Text} (h : r.pass s = x ++ t) :
    (∃ s', s = x ++ s' ∧ r.pass s' = t) ∨
      ∃ a b u y rest, x = a ++ b ∧ b ≠ [] ∧ s = a ++ u ∧ r.fire? u = some (y, rest) ∧
        y ++ r.pass rest = b ++ t := by
  induction x generalizing s with
  | nil => exact Or.inl ⟨s, rfl, h⟩
  | cons c x ih =>
    cases s with
    | nil => rw [pass_nil] at h; cases h
    | cons d s =>
      cases hfire : r.fire? (d :: s) with
      | some out =>
        obtain ⟨y, rest⟩ := out
        rw [pass_of_fire? hfire] at h
        exact Or.inr ⟨[], c :: x, d :: s, y, rest, rfl, List.cons_ne_nil c x, rfl, hfire, h⟩
      | none =>
        rw [pass_cons_of_fire? hfire] at h
        obtain ⟨rfl, htail⟩ := List.cons.inj h
        rcases ih htail with ⟨s', rfl, hs'⟩ | ⟨a, b, u, y, rest, rfl, hb, rfl, hu, hy⟩
        · exact Or.inl ⟨s', rfl, hs'⟩
        · exact Or.inr ⟨d :: a, b, u, y, rest, rfl, hb, rfl, hu, hy⟩

/-- The beginning of a pass was there before, if nothing that the rule writes stands in it. -/
theorem exists_of_pass_eq_append {x t : Text}
    (hx : ∀ a b u y, x = a ++ b → b ≠ [] → r.Writes u y → ¬ y <+: b ++ t) {s : Text}
    (h : r.pass s = x ++ t) : ∃ s', s = x ++ s' ∧ r.pass s' = t := by
  rcases pass_eq_append_cases h with hs | ⟨a, b, u, y, rest, hab, hb, -, hfire, hy⟩
  · exact hs
  · obtain ⟨v, -, hw⟩ := exists_writes hfire
    exact absurd ⟨r.pass rest, hy⟩ (hx a b v y hab hb hw)

/-- A pass neither reads nor writes anything in a beginning without the character that everything
    starts with which the rule reads or writes. -/
theorem isPrefix_pass_iff {d : Char} {w : Text} (hd : d ∉ w) (hhead : r.head.head? = some d)
    (hwrites : ∀ {x y : Text}, r.Writes x y → y.head? = some d) (s : Text) :
    w <+: r.pass s ↔ w <+: s := by
  induction w generalizing s with
  | nil => simp
  | cons a w ih =>
    rw [List.mem_cons, not_or] at hd
    have hne : ∀ {t : Text}, t.head? = some d → ¬ a :: w <+: t := by
      rintro t ht ⟨u, rfl⟩
      exact hd.1 (Option.some.inj ht).symm
    cases s with
    | nil => rw [pass_nil]
    | cons c s =>
      cases hfire : r.fire? (c :: s) with
      | none =>
        rw [pass_cons_of_fire? hfire, List.cons_prefix_cons, List.cons_prefix_cons, ih hd.2]
      | some out =>
        obtain ⟨x, -, hw⟩ := exists_writes hfire
        obtain ⟨t, ht, -⟩ := fire?_eq_some_iff.1 hfire
        rw [pass_of_fire? hfire]
        refine iff_of_false (hne ?_) (hne ?_)
        · simp [List.head?_append, hwrites hw]
        · simp [ht, List.head?_append, hhead]

/-- A pass over a text comes to apply the rule right before an ending of the text. -/
inductive AppliesAt (r : Rule) : Text → Text → Prop
  | here {s out rest : Text} (h : r.fire? s = some (out, rest)) : AppliesAt r s s
  | keep {c : Char} {s t : Text} (h : r.fire? (c :: s) = none) (ht : AppliesAt r s t) :
      AppliesAt r (c :: s) t
  | write {s out rest t : Text} (h : r.fire? s = some (out, rest)) (ht : AppliesAt r rest t) :
      AppliesAt r s t

theorem not_appliesAt_nil {t : Text} : ¬ r.AppliesAt [] t := by
  intro h
  cases h with
  | here hfire | write hfire => rw [fire?_nil] at hfire; cases hfire

/-- Where the rule does not apply, a pass comes to what it comes to one character later. -/
theorem appliesAt_cons_iff {c : Char} {s t : Text} (h : r.fire? (c :: s) = none) :
    r.AppliesAt (c :: s) t ↔ r.AppliesAt s t := by
  constructor
  · intro ht
    cases ht with
    | here hfire | write hfire => rw [h] at hfire; cases hfire
    | keep _ ht => exact ht
  · exact AppliesAt.keep h

/-- Where the rule applies, a pass comes to that place and to those behind what is read there. -/
theorem appliesAt_iff_of_fire? {s y rest t : Text} (h : r.fire? s = some (y, rest)) :
    r.AppliesAt s t ↔ t = s ∨ r.AppliesAt rest t := by
  constructor
  · intro ht
    cases ht with
    | here => exact Or.inl rfl
    | keep hnone => rw [hnone] at h; cases h
    | write hfire ht =>
      rw [hfire] at h
      cases h
      exact Or.inr ht
  · rintro (rfl | ht)
    · exact AppliesAt.here h
    · exact AppliesAt.write h ht

/-- A shorter ending than the one where the rule applies is behind what is read there. -/
theorem appliesAt_iff_of_length_lt {s y rest t : Text} (h : r.fire? s = some (y, rest))
    (ht : t.length < s.length) : r.AppliesAt s t ↔ r.AppliesAt rest t := by
  rw [appliesAt_iff_of_fire? h, or_iff_right]
  rintro rfl
  exact Nat.lt_irrefl _ ht

theorem AppliesAt.exists_fire? {s t : Text} (h : r.AppliesAt s t) :
    ∃ out rest, r.fire? t = some (out, rest) := by
  induction h with
  | here h => exact ⟨_, _, h⟩
  | keep _ _ ih | write _ _ ih => exact ih

theorem appliesAt_self_iff {s : Text} : r.AppliesAt s s ↔ r.fire? s ≠ none := by
  rw [Option.ne_none_iff_exists']
  constructor
  · intro h
    obtain ⟨out, rest, hfire⟩ := h.exists_fire?
    exact ⟨(out, rest), hfire⟩
  · rintro ⟨out, hfire⟩
    exact AppliesAt.here hfire

/-- A pass comes to endings of the text. -/
theorem AppliesAt.isSuffix {s t : Text} (h : r.AppliesAt s t) : t <:+ s := by
  induction h with
  | here => exact List.suffix_rfl
  | keep _ _ ih => exact ih.trans (List.suffix_cons _ _)
  | write hfire _ ih =>
    obtain ⟨x, rfl, -⟩ := exists_writes hfire
    exact ih.trans (List.suffix_append x _)

/-- A pass comes to each place where the rule applies, unless it reads over that place from one that
    it has come to before. -/
theorem appliesAt_or_reads_over {s t : Text} (ht : t <:+ s) (hfire : r.fire? t ≠ none) :
    r.AppliesAt s t ∨ ∃ u y rest, r.AppliesAt s u ∧ r.fire? u = some (y, rest) ∧
      rest.length < t.length ∧ t.length < u.length := by
  refine reading_induction (r := r) (P := fun s => t <:+ s → r.AppliesAt s t ∨ ∃ u y rest,
    r.AppliesAt s u ∧ r.fire? u = some (y, rest) ∧ rest.length < t.length ∧ t.length < u.length)
    ?_ ?_ ?_ s ht
  · intro ht
    rw [List.suffix_nil.1 ht, fire?_nil] at hfire
    exact absurd rfl hfire
  · intro c s hnone ih ht
    rcases List.suffix_cons_iff.1 ht with rfl | ht
    · exact absurd hnone hfire
    · rcases ih ht with hat | ⟨u, y, rest, hat, hu⟩
      · exact Or.inl (.keep hnone hat)
      · exact Or.inr ⟨u, y, rest, .keep hnone hat, hu⟩
  · intro s y rest hs ih ht
    obtain ⟨x, hx, -⟩ := exists_writes hs
    rcases Nat.lt_or_ge rest.length t.length with hlt | hle
    · rcases Nat.lt_or_ge t.length s.length with hlt' | hle'
      · exact Or.inr ⟨s, y, rest, .here hs, hs, hlt, hlt'⟩
      · rw [ht.eq_of_length_le hle']
        exact Or.inl (.here hs)
    · have hrest : t <:+ rest := List.suffix_of_suffix_length_le ht ⟨x, hx.symm⟩ hle
      rcases ih hrest with hat | ⟨u, z, v, hat, hu⟩
      · exact Or.inl (.write hs hat)
      · exact Or.inr ⟨u, z, v, .write hs hat, hu⟩

section
variable (size : Text → Int) (append : ∀ s t, size (s ++ t) = size s + size t)
include append

/-- A pass takes some size away or leaves the text as it is, if whatever the rule writes takes some
    away or is what it has read. -/
theorem pass_eq_self_or_size_lt (h : ∀ {x y}, r.Writes x y → y = x ∨ size y < size x) (s : Text) :
    r.pass s = s ∨ size (r.pass s) < size s := by
  refine pass_induction (r := r) (R := fun s t => t = s ∨ size t < size s) (Or.inl rfl) ?_ ?_ s
  · intro c s _ ih
    have hcons : ∀ t, size (c :: t) = size [c] + size t := append [c]
    rw [hcons, hcons s]
    exact ih.imp (congrArg (c :: ·)) fun hlt => Int.add_lt_add_left hlt _
  · intro x y rest hw ih
    rw [append, append]
    rcases h hw with rfl | hwrite
    · exact ih.imp (congrArg (y ++ ·)) fun hlt => Int.add_lt_add_left hlt _
    · have hrest : size (r.pass rest) ≤ size rest := by
        rcases ih with heq | hlt
        · exact Int.le_of_eq (congrArg size heq)
        · exact Int.le_of_lt hlt
      exact Or.inr (by omega)

/-- Such a pass leaves a text as it is exactly if wherever it comes to apply the rule, it writes what
    it has read. -/
theorem pass_eq_self_iff_appliesAt (h : ∀ {x y}, r.Writes x y → y = x ∨ size y < size x)
    {s : Text} : r.pass s = s ↔
      ∀ t, r.AppliesAt s t → ∃ x rest, t = x ++ rest ∧ r.fire? t = some (x, rest) := by
  refine reading_induction (r := r) (P := fun s => r.pass s = s ↔
    ∀ t, r.AppliesAt s t → ∃ x rest, t = x ++ rest ∧ r.fire? t = some (x, rest)) ?_ ?_ ?_ s
  · exact iff_of_true (pass_nil r) fun t ht => absurd ht not_appliesAt_nil
  · intro c s hnone ih
    simp only [appliesAt_cons_iff hnone, ← ih, pass_cons_of_fire? hnone, List.cons.injEq, true_and]
  · intro s y rest hfire ih
    obtain ⟨x, rfl, hw⟩ := exists_writes hfire
    simp only [appliesAt_iff_of_fire? hfire, forall_eq_or_imp, ← ih, pass_of_fire? hfire]
    constructor
    · intro hs
      have hsize := congrArg size hs
      rw [append, append] at hsize
      have hyx : y = x := by
        refine (h hw).resolve_right fun hwrite => ?_
        rcases pass_eq_self_or_size_lt size append h rest with heq | hlt
        · rw [heq] at hsize
          omega
        · omega
      subst hyx
      exact ⟨⟨y, rest, rfl, hfire⟩, List.append_cancel_left hs⟩
    · rintro ⟨⟨z, rest', hz, hfire'⟩, hrest⟩
      rw [hfire] at hfire'
      cases hfire'
      rw [hrest, hz]

/-- Where the rule takes some size away from whatever it reads, a pass changes nothing only if the
    rule applies nowhere. -/
theorem pass_eq_self_iff (h : ∀ {x y}, r.Writes x y → size y < size x) {s : Text} :
    r.pass s = s ↔ ∀ t, t <:+ s → r.fire? t = none := by
  refine ⟨fun hs t ht => ?_, pass_eq_self_of_forall⟩
  have hself := (pass_eq_self_iff_appliesAt size append fun hw => Or.inr (h hw)).1 hs
  have hnever : ∀ u, ¬ r.AppliesAt s u := by
    intro u hu
    obtain ⟨x, rest, rfl, hfire⟩ := hself u hu
    exact absurd (h ⟨rest, hfire⟩) (Int.lt_irrefl _)
  cases hfire : r.fire? t with
  | none => rfl
  | some out =>
    have hne : r.fire? t ≠ none := by
      rw [hfire]
      exact Option.some_ne_none out
    rcases appliesAt_or_reads_over ht hne with hat | ⟨u, -, -, hat, -⟩
    · exact absurd hat (hnever t)
    · exact absurd hat (hnever u)

end

section
variable (keep : ∀ {c s}, r.fire? (c :: s) = none → r.fire? (c :: r.pass s) = none)
  (write : ∀ {x y}, r.Writes x y → ∀ rest, r.fire? (y ++ rest) = some (y, rest))
include keep write

/-- A second pass changes nothing, if the rule writes a text that it would write again and does not
    apply in front of a pass where it did not apply before. -/
theorem pass_pass (s : Text) : r.pass (r.pass s) = r.pass s := by
  refine pass_induction (r := r) (R := fun _ t => r.pass t = t) (pass_nil r) ?_ ?_ s
  · intro c s h ih
    rw [pass_cons_of_fire? (keep h), ih]
  · intro x y rest hw ih
    rw [pass_of_fire? (write hw _), ih]

/-- All that a second pass comes to is what the first one wrote. -/
theorem exists_writes_of_appliesAt_pass {s t : Text} (h : r.AppliesAt (r.pass s) t) :
    ∃ x y rest, r.Writes x y ∧ t = y ++ rest := by
  refine pass_induction (r := r)
    (R := fun _ u => r.AppliesAt u t → ∃ x y rest, r.Writes x y ∧ t = y ++ rest) ?_ ?_ ?_ s h
  · exact fun h => absurd h not_appliesAt_nil
  · intro c s hnone ih h
    exact ih ((appliesAt_cons_iff (keep hnone)).1 h)
  · intro x y rest hw ih h
    rcases (appliesAt_iff_of_fire? (write hw _)).1 h with rfl | ht
    · exact ⟨x, y, r.pass rest, hw, rfl⟩
    · exact ih ht

end

end Rule

namespace Replacement

theorem writes_rule {p : Replacement} {x y : Text} (h : p.rule.Writes x y) :
    x = p.old ∧ y = p.new := by
  obtain ⟨rest, h⟩ := h
  obtain ⟨t, hx, ht⟩ := Rule.fire?_eq_some_iff.1 h
  cases ht
  exact ⟨List.append_cancel_right hx, rfl⟩

/-- A replacement that does not apply at the start of a text does not find its old text there. -/
theorem not_isPrefix_of_fire?_eq_none {p : Replacement} {s : Text} (h : p.rule.fire? s = none) :
    ¬ p.old <+: s := by
  rintro ⟨t, rfl⟩
  have hsome : p.rule.fire? (p.old ++ t) = some (p.new, t) :=
    Rule.fire?_eq_some_iff.2 ⟨t, rfl, rfl⟩
  rw [hsome] at h
  cases h

/-- A replacement keeps the characters that both of its texts agree on. -/
theorem filter_apply {p : Replacement} {q : Char → Bool} (h : p.new.filter q = p.old.filter q)
    (s : Text) : (p.apply s).filter q = s.filter q := by
  refine Rule.filter_pass ?_ s
  intro x y hw
  obtain ⟨rfl, rfl⟩ := writes_rule hw
  exact h

/-- A replacement in a text of characters of some kind writes characters of that kind, if its new
    text does. -/
theorem forall_mem_apply {p : Replacement} {P : Char → Prop} (h : ∀ c ∈ p.new, P c) {s : Text}
    (hs : ∀ c ∈ s, P c) : ∀ c ∈ p.apply s, P c := by
  refine Rule.forall_mem_pass ?_ hs
  intro x y hw _
  rw [(writes_rule hw).2]
  exact h

/-- A single character that is replaced is gone, if the new text does not have it. -/
theorem not_mem_apply {p : Replacement} {c : Char} (hold : p.old = [c]) (hnew : c ∉ p.new)
    (s : Text) : c ∉ p.apply s := by
  refine Rule.pass_induction (r := p.rule) (R := fun _ t => c ∉ t) List.not_mem_nil ?_ ?_ s
  · intro d s hnone ih
    have hne : c ≠ d := by
      rintro rfl
      refine not_isPrefix_of_fire?_eq_none hnone ?_
      rw [hold]
      exact List.prefix_append [c] s
    exact List.not_mem_cons_of_ne_of_not_mem hne ih
  · intro x y rest hw ih
    rw [(writes_rule hw).2]
    exact List.not_mem_append hnew ih

/-- What every single exchange keeps, a replacement keeps. -/
theorem apply_induction {p : Replacement} {P : Text → Prop}
    (exchange : ∀ a b, P (a ++ (p.old ++ b)) → P (a ++ (p.new ++ b))) {s : Text} (hs : P s) :
    P (p.apply s) := by
  -- The text before the place that a pass has come to grows with what it keeps or writes.
  have hpass : ∀ a, P (a ++ s) → P (a ++ p.apply s) := by
    refine Rule.pass_induction (R := fun s t => ∀ a, P (a ++ s) → P (a ++ t)) ?_ ?_ ?_ s
    · exact fun _ => id
    · intro c s _ ih a hs
      have hkeep := ih (a ++ [c])
      rw [List.append_assoc, List.append_assoc] at hkeep
      exact hkeep hs
    · intro x y rest hw ih a hs
      obtain ⟨rfl, rfl⟩ := writes_rule hw
      have hwrite := ih (a ++ p.new)
      rw [List.append_assoc, List.append_assoc] at hwrite
      exact hwrite (exchange a rest hs)
  exact hpass [] hs

/-- What every entry of a table keeps, the table keeps. -/
theorem applyAll_induction {P : Text → Prop} {table : List Replacement} {s : Text}
    (h : ∀ p ∈ table, ∀ t, P t → P (p.apply t)) (hs : P s) : P (applyAll table s) := by
  refine List.foldlRecOn table _ hs ?_
  intro t ht p hp
  exact h p hp t ht

/-- A single character that a table replaces is gone behind it, if no entry writes it. -/
theorem not_mem_applyAll {table : List Replacement} {p : Replacement} {c : Char} (hp : p ∈ table)
    (hold : p.old = [c]) (hnew : ∀ q ∈ table, c ∉ q.new) (s : Text) : c ∉ applyAll table s := by
  obtain ⟨first, last, rfl⟩ := List.append_of_mem hp
  rw [applyAll_append, applyAll_cons]
  refine applyAll_induction (P := fun t => c ∉ t) ?_ (not_mem_apply hold (hnew p hp) _)
  intro q hq t ht hmem
  have hq' := hnew q (List.mem_append_right _ (List.mem_cons_of_mem p hq))
  exact forall_mem_apply (P := fun d => d ≠ c) (fun d hd => ne_of_mem_of_not_mem hd hq')
    (fun d hd => ne_of_mem_of_not_mem hd ht) c hmem rfl

/-- A table leaves a text as it is that none of its entries finds anything in. -/
theorem applyAll_eq_self {table : List Replacement} {s : Text}
    (h : ∀ p ∈ table, ¬ p.old <:+: s) : applyAll table s = s := by
  refine List.foldlRecOn (motive := fun t : Text => t = s) table _ rfl ?_
  intro t ht p hp
  rw [ht]
  exact Rule.pass_eq_self (h p hp)

section
variable (size : Text → Int) (append : ∀ s t, size (s ++ t) = size s + size t)
include append

/-- A replacement by a text of less size takes some size away wherever the old text occurs. -/
theorem size_apply {p : Replacement} (h : size p.new < size p.old) (s : Text) :
    size (p.apply s) ≤ size s ∧ (p.old <:+: s → size (p.apply s) < size s) := by
  have hw : ∀ {x y}, p.rule.Writes x y → size y < size x := by
    intro x y hw
    obtain ⟨rfl, rfl⟩ := writes_rule hw
    exact h
  rcases Rule.pass_eq_self_or_size_lt size append (fun hxy => Or.inr (hw hxy)) s with heq | hlt
  · refine ⟨Int.le_of_eq (congrArg size heq), fun ⟨x, y, hxy⟩ => ?_⟩
    have hnone := (Rule.pass_eq_self_iff size append hw).1 heq (p.old ++ y)
      ⟨x, by rw [← hxy, List.append_assoc]⟩
    exact absurd (List.prefix_append p.old y) (not_isPrefix_of_fire?_eq_none hnone)
  · exact ⟨Int.le_of_lt hlt, fun _ => hlt⟩

variable {table : List Replacement} (h : ∀ p ∈ table, size p.new < size p.old)
include h

theorem size_applyAll_le (s : Text) : size (applyAll table s) ≤ size s := by
  refine applyAll_induction (P := fun t => size t ≤ size s) ?_ (Int.le_refl _)
  intro p hp t ht
  exact Int.le_trans (size_apply size append (h p hp) t).1 ht

/-- A table of such entries takes some size away unless none of them finds anything. -/
theorem not_isInfix_of_size_le {s : Text} (hs : size s ≤ size (applyAll table s)) :
    ∀ p ∈ table, ¬ p.old <:+: s := by
  induction table with
  | nil => nofun
  | cons p table ih =>
    rw [List.forall_mem_cons] at h ⊢
    have hfirst := size_apply size append h.1 s
    have hrest := size_applyAll_le size append h.2 (p.apply s)
    rw [applyAll_cons] at hs
    have hp : ¬ p.old <:+: s := fun hinfix => by
      have hlt := hfirst.2 hinfix
      omega
    have hself : p.apply s = s := Rule.pass_eq_self hp
    rw [hself] at hs
    exact ⟨hp, ih h.2 hs⟩

end

end Replacement

end TidyTex
