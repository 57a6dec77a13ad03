import Mathlib.Data.List.Infix
import TidyTex.Proofs.Occurrence
import TidyTex.Proofs.Rule

/-! Where a text occurs after a replacement.

    What a replacement writes has new neighbours, and together with them it can make up a text that
    was not there before. Such a text holds the new one, lies in it, begins in it or ends in it:

        ····│ new │····
          ├───────────┤        the new text lies in the occurrence
            ├───┤              the occurrence lies in the new text
          ├────┤               it ends in a beginning of the new text
                ├───┤          it begins in an ending of the new text

    All four can be read off the two texts alone. If whatever comes about in one of these ways would
    have come about with the old text as well, nothing comes up (`Spares.isInfix`), and if there is
    no such way at all, a pass leaves nothing of what it looks for (`Rule.not_isInfix_pass`). A
    table leaves none of its old texts if moreover no later entry brings an earlier one back
    (`not_isInfix_applyAll`).

    Characters can be written out, or exchanged one for one, before or after a replacement, as long
    as nothing becomes its old text in that way and none of its occurrences goes across what is
    written for a character (`apply_flatMap`, `apply_map`). -/

namespace TidyTex

namespace Text

/-- Each way in which an occurrence of `w` can share characters with `y` is open to it with `x` in
    place of `y`, and it cannot hold all of `y`. -/
structure Spares (w x y : Text) : Prop where
  inside : w <:+: y → w <:+: x
  around : ¬ y <:+: w
  ending : ∀ u ∈ w.tails, u ≠ [] → u <+: y → u <+: x
  beginning : ∀ u ∈ w.inits, u ≠ [] → u <:+ y → u <:+ x

instance (w x y : Text) : Decidable (Spares w x y) :=
  decidable_of_iff ((w <:+: y → w <:+: x) ∧ ¬ y <:+: w ∧
      (∀ u ∈ w.tails, u ≠ [] → u <+: y → u <+: x) ∧ ∀ u ∈ w.inits, u ≠ [] → u <:+ y → u <:+ x)
    ⟨fun ⟨hinside, haround, hending, hbeginning⟩ => ⟨hinside, haround, hending, hbeginning⟩,
      fun h => ⟨h.inside, h.around, h.ending, h.beginning⟩⟩

/-- No occurrence of `w` can share characters with `y`. -/
def Clear (w y : Text) : Prop := Spares w [] y

instance (w y : Text) : Decidable (Clear w y) := inferInstanceAs (Decidable (Spares w [] y))

/-- None of the characters is in the text. -/
def Avoids (chars s : Text) : Prop := ∀ c ∈ s, c ∉ chars

instance (chars : Text) : DecidablePred (Avoids chars) := fun s =>
  List.decidableBAll (fun c => c ∉ chars) s

variable {w x y : Text}

/-- What is spared does not come up when `y` takes the place of `x`. -/
theorem Spares.isInfix (h : Spares w x y) {a b : Text} (hw : w <:+: a ++ (y ++ b)) :
    w <:+: a ++ (x ++ b) := by
  obtain ⟨hinside, haround, hends, hbegins⟩ := h
  have hright : ∀ {u}, u <:+: x ++ b → u <:+: a ++ (x ++ b) := fun hu =>
    hu.trans (List.suffix_append a _).isInfix
  rcases List.infix_append_iff_ne_nil.1 hw with ha | hyb | ⟨u, v, hu, hv, rfl, hua, hvy⟩
  · exact ha.trans (List.prefix_append a _).isInfix
  · rcases List.infix_append_iff_ne_nil.1 hyb with hy | hb | ⟨u, v, hu, hv, rfl, huy, hvb⟩
    · exact hright ((hinside hy).trans (List.prefix_append x b).isInfix)
    · exact hright (hb.trans (List.suffix_append x b).isInfix)
    · have hux : u <:+ x := hbegins u ((List.mem_inits _ _).2 (List.prefix_append u v)) hu huy
      exact hright (List.infix_append_iff.2 (Or.inr (Or.inr ⟨u, v, rfl, hux, hvb⟩)))
  · rcases List.prefix_or_prefix_of_prefix hvy (List.prefix_append y b) with hy | hy
    · have hvx : v <+: x := hends v ((List.mem_tails _ _).2 (List.suffix_append u v)) hv hy
      exact List.infix_append_iff.2
        (Or.inr (Or.inr ⟨u, v, rfl, hua, hvx.trans (List.prefix_append x b)⟩))
    · exact absurd (hy.isInfix.trans (List.suffix_append u v).isInfix) haround

/-- No ending of `w` goes on with `y`. -/
theorem Clear.not_isPrefix_append (h : Clear w y) {b : Text} (hb : b <:+ w) (hne : b ≠ [])
    (t : Text) : ¬ y <+: b ++ t := by
  intro hy
  obtain ⟨-, haround, hends, -⟩ := h
  rcases List.prefix_or_prefix_of_prefix hy (List.prefix_append b t) with hyb | hby
  · exact haround (hyb.isInfix.trans hb.isInfix)
  · exact hne (List.prefix_nil.1 (hends b ((List.mem_tails _ _).2 hb) hne hby))

/-- What occurs behind `y` or across its end occurs behind it. -/
theorem Clear.isInfix_of_append (h : Clear w y) (hne : w ≠ []) {t : Text} (hw : w <:+: y ++ t) :
    w <:+: t := by
  obtain ⟨hinside, -, -, hbegins⟩ := h
  rcases List.infix_append_iff_ne_nil.1 hw with hy | ht | ⟨a, b, ha, -, rfl, hay, -⟩
  · exact absurd (List.infix_nil.1 (hinside hy)) hne
  · exact ht
  · have hinit : a ∈ (a ++ b).inits := (List.mem_inits _ _).2 (List.prefix_append a b)
    exact absurd (List.suffix_nil.1 (hbegins a hinit ha hay)) ha

/-- What shares no characters with `y` is counted behind it. -/
theorem Clear.occurrences_append (h : Clear w y) (hne : w ≠ []) (t : Text) :
    occurrences w (y ++ t) = occurrences w t := by
  have hnone : NoneAcross w y t := by
    intro u v hy hv hw
    rcases List.prefix_or_prefix_of_prefix hw (List.prefix_append v t) with hwv | hvw
    · exact hwv
    · have hnil := h.beginning v ((List.mem_inits _ _).2 hvw) hv ⟨u, hy.symm⟩
      exact absurd (List.suffix_nil.1 hnil) hv
  have hzero : occurrences w y = 0 :=
    (occurrences_eq_zero_iff hne).2 fun hwy => hne (List.infix_nil.1 (h.inside hwy))
  rw [hnone.occurrences_append hne, hzero, Nat.zero_add]

theorem filter_ne_nil_of_suffix {p : Char → Bool} {c : Char} (hc : p c = true) {b : Text}
    (hw : [c] <:+ w) (hb : b <:+ w) (hne : b ≠ []) : b.filter p ≠ [] := by
  obtain ⟨z, rfl⟩ := hw
  obtain ⟨t, rfl, -⟩ := (List.suffix_concat_iff.1 hb).resolve_left hne
  exact List.ne_nil_of_mem (List.mem_filter.2 ⟨List.mem_append_right t List.mem_cons_self, hc⟩)

/-- It is enough to look at the characters of some kind, if both texts end in one of them. -/
theorem Clear.of_filter {p : Char → Bool} {c : Char} (hc : p c = true) (hw : [c] <:+ w)
    (hy : [c] <:+ y) (h : Clear (w.filter p) (y.filter p)) : Clear w y := by
  have hwne : w ≠ [] := by
    rintro rfl
    exact List.cons_ne_nil c [] (List.suffix_nil.1 hw)
  obtain ⟨hinside, haround, hends, hbegins⟩ := h
  refine ⟨?_, fun hyw => haround (hyw.filter p), ?_, ?_⟩
  · intro hwy
    have hnil := List.infix_nil.1 (hinside (hwy.filter p))
    exact absurd hnil (filter_ne_nil_of_suffix hc hw List.suffix_rfl hwne)
  · intro b hb hne hby
    have hsuffix : b <:+ w := (List.mem_tails _ _).1 hb
    have hrow := filter_ne_nil_of_suffix hc hw hsuffix hne
    exact absurd (List.prefix_nil.1 (hends _ ((List.mem_tails _ _).2 (hsuffix.filter p)) hrow
      (hby.filter p))) hrow
  · intro b hb hne hby
    have hstart : b <+: w := (List.mem_inits _ _).1 hb
    have hrow := filter_ne_nil_of_suffix hc hy hby hne
    exact absurd (List.suffix_nil.1 (hbegins _ ((List.mem_inits _ _).2 (hstart.filter p)) hrow
      (hby.filter p))) hrow

end Text

namespace Rule

open Text

variable {r : Rule} {w : Text}

/-- A pass leaves nothing of a text that the rule applies at, if no occurrence of it can share
    characters with what the rule writes. -/
theorem not_isInfix_pass (hfire : ∀ t, r.fire? (w ++ t) ≠ none)
    (hclear : ∀ {x y}, r.Writes x y → Clear w y) (s : Text) : ¬ w <:+: r.pass s := by
  have hne : w ≠ [] := by
    rintro rfl
    exact hfire [] (fire?_nil r)
  refine pass_induction (R := fun _ t => ¬ w <:+: t) ?_ ?_ ?_ s
  · exact fun hnil => hne (List.infix_nil.1 hnil)
  · intro c s hnone ih hfound
    obtain ⟨t, ht⟩ := (List.infix_cons_iff.1 hfound).resolve_right ih
    rw [← pass_cons_of_fire? hnone] at ht
    -- Nothing that was written begins in the occurrence, so all of it was there before.
    have hkept : ∀ a b u y, w = a ++ b → b ≠ [] → r.Writes u y → ¬ y <+: b ++ t :=
      fun a b u y hab hb hw => (hclear hw).not_isPrefix_append ⟨a, hab.symm⟩ hb t
    obtain ⟨s', hs', -⟩ := exists_of_pass_eq_append hkept ht.symm
    rw [hs'] at hnone
    exact hfire s' hnone
  · intro x y rest hw ih hfound
    exact ih ((hclear hw).isInfix_of_append hne hfound)

end Rule

namespace Replacement

open Text

variable {p : Replacement} {table : List Replacement} {w : Text}

/-! ### What comes up, and what goes away -/

theorem isInfix_of_isInfix_apply (h : Spares w p.old p.new) {s : Text} (hw : w <:+: p.apply s) :
    w <:+: s := by
  by_contra hs
  exact apply_induction (P := fun t => ¬ w <:+: t) (fun _ _ => mt h.isInfix) hs hw

theorem isInfix_apply (h : Spares w p.new p.old) {s : Text} (hw : w <:+: s) : w <:+: p.apply s :=
  apply_induction (P := fun t => w <:+: t) (fun _ _ => h.isInfix) hw

theorem isInfix_of_isInfix_applyAll (h : ∀ p ∈ table, Spares w p.old p.new) {s : Text}
    (hw : w <:+: applyAll table s) : w <:+: s := by
  by_contra hs
  refine applyAll_induction (P := fun t => ¬ w <:+: t) ?_ hs hw
  intro p hp t
  exact mt (isInfix_of_isInfix_apply (h p hp))

theorem isInfix_applyAll (h : ∀ p ∈ table, Spares w p.new p.old) {s : Text} (hw : w <:+: s) :
    w <:+: applyAll table s :=
  applyAll_induction (P := fun t => w <:+: t) (fun p hp _ => isInfix_apply (h p hp)) hw

/-- A replacement leaves nothing of the old text, if no occurrence of it can share characters with
    the new one. -/
theorem not_isInfix_apply (h : Clear p.old p.new) (s : Text) : ¬ p.old <:+: p.apply s := by
  refine Rule.not_isInfix_pass ?_ ?_ s
  · exact fun t hnone => not_isPrefix_of_fire?_eq_none hnone (List.prefix_append p.old t)
  · intro x y hw
    rw [(writes_rule hw).2]
    exact h

/-- A table leaves none of its old texts, if each entry is clear of its own and spares the earlier
    ones. -/
theorem not_isInfix_applyAll (hown : ∀ p ∈ table, Clear p.old p.new)
    (hpair : table.Pairwise fun p q => Spares p.old q.old q.new) (s : Text) :
    ∀ p ∈ table, ¬ p.old <:+: applyAll table s := by
  induction table generalizing s with
  | nil => nofun
  | cons q table ih =>
    rw [List.forall_mem_cons] at hown ⊢
    obtain ⟨hq, hpair⟩ := List.pairwise_cons.1 hpair
    rw [applyAll_cons]
    exact ⟨mt (isInfix_of_isInfix_applyAll hq) (not_isInfix_apply hown.1 s),
      ih hown.2 hpair (q.apply s)⟩

/-- Where a text avoids some characters and they are not written, the entries that look for them
    have nothing to do. -/
theorem applyAll_filter_avoids {chars : Text}
    (hnew : ∀ p ∈ table, Avoids chars p.old → Avoids chars p.new) {s : Text} (hs : Avoids chars s) :
    applyAll (table.filter fun p => Avoids chars p.old) s = applyAll table s ∧
      Avoids chars (applyAll table s) := by
  induction table generalizing s with
  | nil => exact ⟨rfl, hs⟩
  | cons p table ih =>
    rw [List.forall_mem_cons] at hnew
    by_cases hp : Avoids chars p.old
    · rw [List.filter_cons_of_pos (by simpa using hp), applyAll_cons, applyAll_cons]
      exact ih hnew.2 (forall_mem_apply (hnew.1 hp) hs)
    · have hidle : p.apply s = s := by
        refine Rule.pass_eq_self ?_
        intro hfound
        exact hp fun c hc => hs c (hfound.subset hc)
      rw [List.filter_cons_of_neg (by simpa using hp), applyAll_cons, hidle]
      exact ih hnew.2 hs

/-- Where the old texts of some entries do not occur, the others do all that the table does, if none
    of them brings one of these texts up. -/
theorem applyAll_filter_of_not_isInfix {keep : Replacement → Bool}
    (hpair : table.Pairwise fun p q => keep p = true → keep q = false → Spares q.old p.old p.new)
    {s : Text} (h : ∀ p ∈ table, keep p = false → ¬ p.old <:+: s) :
    applyAll (table.filter keep) s = applyAll table s := by
  induction table generalizing s with
  | nil => rfl
  | cons p table ih =>
    obtain ⟨hp, hpair⟩ := List.pairwise_cons.1 hpair
    rw [List.forall_mem_cons] at h
    cases hkeep : keep p with
    | true =>
      rw [List.filter_cons_of_pos hkeep, applyAll_cons, applyAll_cons]
      refine ih hpair fun q hq hdrop => ?_
      exact mt (isInfix_of_isInfix_apply (hp q hq hkeep hdrop)) (h.2 q hq hdrop)
    | false =>
      have hidle : p.apply s = s := Rule.pass_eq_self (h.1 hkeep)
      rw [List.filter_cons_of_neg (by simp [hkeep]), applyAll_cons, hidle]
      exact ih hpair h.2

/-! ### Texts that are written out character by character -/

/-- A single character is kept unless it is the old text. -/
theorem apply_singleton {c : Char} (h : [c] ≠ p.old) : p.apply [c] = [c] := by
  have hnone : ¬ p.old <+: [c] := by
    intro hp
    rcases List.prefix_cons_iff.1 hp with hnil | ⟨t, ht, htnil⟩
    · exact p.old_ne_nil hnil
    · rw [List.prefix_nil.1 htnil] at ht
      exact h ht.symm
  rw [apply_cons_of_not_isPrefix hnone, apply_nil]

/-- A single character that is replaced makes way everywhere. -/
theorem apply_eq_flatMap {d : Char} (hold : p.old = [d]) (s : Text) :
    p.apply s = s.flatMap fun c => if c = d then p.new else [c] := by
  induction s with
  | nil => exact apply_nil p
  | cons c s ih =>
    rw [List.flatMap_cons]
    split
    next hc =>
      have happly := p.apply_append s
      rw [hold, ← hc] at happly
      rw [← ih, ← happly, List.singleton_append]
    next hc =>
      have hnone : ¬ p.old <+: c :: s := by
        rw [hold, List.cons_prefix_cons]
        exact fun h => hc h.1.symm
      rw [apply_cons_of_not_isPrefix hnone, ih, List.singleton_append]

/-- The texts on both sides of a place that no occurrence goes across are replaced in separately. -/
theorem apply_append_of_noneAcross {x y : Text} (h : NoneAcross p.old x y) :
    p.apply (x ++ y) = p.apply x ++ p.apply y := by
  refine Rule.reading_induction (r := p.rule)
    (P := fun x => NoneAcross p.old x y → p.apply (x ++ y) = p.apply x ++ p.apply y) ?_ ?_ ?_ x h
  · intro _
    rw [apply_nil, List.nil_append, List.nil_append]
  · intro c x hnone ih h
    have hx : ¬ p.old <+: c :: x := not_isPrefix_of_fire?_eq_none hnone
    rw [apply_cons_of_not_isPrefix hx, List.cons_append,
      apply_cons_of_not_isPrefix (mt h.isPrefix_iff.1 hx), ih h.tail, List.cons_append]
  · intro s z rest hfire ih h
    obtain ⟨u, rfl, hw⟩ := Rule.exists_writes hfire
    rw [(writes_rule hw).1] at h ⊢
    have hrest : NoneAcross p.old rest y := fun u v huv =>
      h (p.old ++ u) v (by rw [huv, List.append_assoc])
    rw [List.append_assoc, apply_append, apply_append, ih hrest, List.append_assoc]

/-- A text that is written out can be replaced in before or after that, if no occurrence that was
    not there before goes across what is written for a character. -/
theorem apply_flatMap {φ ψ : Char → Text} {s : Text}
    (hnone : ∀ c t, c :: t <:+ s → ¬ p.old <+: c :: t → NoneAcross p.old (φ c) (t.flatMap φ))
    (hkeep : ∀ c, [c] ≠ p.old → p.apply (φ c) = ψ c) (hold : p.old.flatMap φ = p.old)
    (hnew : p.new.flatMap ψ = p.new) : p.apply (s.flatMap φ) = (p.apply s).flatMap ψ := by
  refine Rule.reading_induction (r := p.rule)
    (P := fun t => t <:+ s → p.apply (t.flatMap φ) = (p.apply t).flatMap ψ) ?_ ?_ ?_ s
    List.suffix_rfl
  · intro _
    rw [List.flatMap_nil, apply_nil, List.flatMap_nil]
  · intro c t hfire ih hsuffix
    have hct : ¬ p.old <+: c :: t := not_isPrefix_of_fire?_eq_none hfire
    have hne : [c] ≠ p.old := fun h => hct (h ▸ List.prefix_append [c] t)
    rw [List.flatMap_cons, apply_append_of_noneAcross (hnone c t hsuffix hct), hkeep c hne,
      ih ((List.suffix_cons c t).trans hsuffix), apply_cons_of_not_isPrefix hct,
      List.flatMap_cons]
  · intro t y rest hfire ih hsuffix
    obtain ⟨u, rfl, hw⟩ := Rule.exists_writes hfire
    rw [(writes_rule hw).1] at hsuffix ⊢
    rw [List.flatMap_append, hold, apply_append, apply_append, List.flatMap_append, hnew,
      ih ((List.suffix_append p.old rest).trans hsuffix)]

/-- Where characters are exchanged one for one, a text can be replaced in before or after that, if
    nothing becomes the old text that was not. -/
theorem apply_map {f : Char → Char} {s : Text}
    (hf : ∀ w, w <:+: s → w.map f = p.old → w = p.old) (hold : p.old.map f = p.old)
    (hnew : p.new.map f = p.new) : p.apply (s.map f) = (p.apply s).map f := by
  refine Rule.reading_induction (r := p.rule)
    (P := fun t => t <:+ s → p.apply (t.map f) = (p.apply t).map f) ?_ ?_ ?_ s List.suffix_rfl
  · intro _
    rw [List.map_nil, apply_nil, List.map_nil]
  · intro c t hfire ih hsuffix
    have hct : ¬ p.old <+: c :: t := not_isPrefix_of_fire?_eq_none hfire
    have hmap : ¬ p.old <+: f c :: t.map f := by
      rw [← List.map_cons, List.prefix_map_iff]
      rintro ⟨w, hw, hwf⟩
      exact hct (hf w (hw.isInfix.trans hsuffix.isInfix) hwf.symm ▸ hw)
    rw [List.map_cons, apply_cons_of_not_isPrefix hmap, apply_cons_of_not_isPrefix hct,
      ih ((List.suffix_cons c t).trans hsuffix), List.map_cons]
  · intro t y rest hfire ih hsuffix
    obtain ⟨u, rfl, hw⟩ := Rule.exists_writes hfire
    rw [(writes_rule hw).1] at hsuffix ⊢
    rw [List.map_append, hold, apply_append, apply_append, List.map_append, hnew,
      ih ((List.suffix_append p.old rest).trans hsuffix)]

/-- What can be done before or after each entry of a table can be done before or after the table. -/
theorem applyAll_comm {f : Text → Text} {P : Text → Prop}
    (h : ∀ p ∈ table, ∀ t, P t → p.apply (f t) = f (p.apply t) ∧ P (p.apply t)) {s : Text}
    (hs : P s) : applyAll table (f s) = f (applyAll table s) := by
  induction table generalizing s with
  | nil => rfl
  | cons p table ih =>
    rw [List.forall_mem_cons] at h
    obtain ⟨hstep, hkept⟩ := h.1 s hs
    rw [applyAll_cons, applyAll_cons, hstep, ih h.2 hkept]

/-! ### What is left where it is -/

/-- A beginning without the character that the old text starts with is kept. -/
theorem apply_append_of_not_mem {d : Char} (hold : p.old.head? = some d) {x : Text} (hx : d ∉ x)
    (s : Text) : p.apply (x ++ s) = x ++ p.apply s := by
  induction x with
  | nil => rfl
  | cons c x ih =>
    rw [List.mem_cons, not_or] at hx
    have hnone : ¬ p.old <+: c :: (x ++ s) := by
      rintro ⟨t, ht⟩
      have hhead := congrArg List.head? ht
      rw [List.head?_append, hold] at hhead
      exact hx.1 (Option.some.inj hhead)
    rw [List.cons_append, apply_cons_of_not_isPrefix hnone, ih hx.2, List.cons_append]

/-- A character that the new text does not start with is at the head of a text if it gets there. -/
theorem head?_of_head?_apply {c d : Char} (hnew : p.new.head? = some d) (hne : c ≠ d) {s : Text}
    (h : (p.apply s).head? = some c) : s.head? = some c := by
  cases s with
  | nil => rwa [apply_nil] at h
  | cons a s =>
    by_cases hp : p.old <+: a :: s
    · obtain ⟨t, ht⟩ := hp
      rw [← ht, apply_append, List.head?_append, hnew] at h
      exact absurd (Option.some.inj h).symm hne
    · rwa [apply_cons_of_not_isPrefix hp] at h

/-- An old text across the end of a beginning that shares no characters with it does not count. -/
theorem apply_append_of_clear (h : Clear w p.old) (s : Text) :
    p.apply (w ++ s) = w ++ p.apply s := by
  have hnone : NoneAcross p.old w s := fun u v hw hne hp =>
    absurd hp (h.not_isPrefix_append ⟨u, hw.symm⟩ hne s)
  rw [apply_append_of_noneAcross hnone]
  exact congrArg (· ++ p.apply s) (Rule.pass_eq_self h.around)

/-- A text that shares characters neither with the old nor with the new text begins a text after a
    replacement exactly if it did before. -/
theorem isPrefix_apply_iff (hold : Clear w p.old) (hnew : Clear w p.new) {s : Text} :
    w <+: p.apply s ↔ w <+: s := by
  constructor
  · rintro ⟨t, ht⟩
    have hkept : ∀ a b u y, w = a ++ b → b ≠ [] → p.rule.Writes u y → ¬ y <+: b ++ t := by
      intro a b u y hab hb hw
      rw [(writes_rule hw).2]
      exact hnew.not_isPrefix_append ⟨a, hab.symm⟩ hb t
    obtain ⟨s', rfl, -⟩ := Rule.exists_of_pass_eq_append hkept ht.symm
    exact List.prefix_append w s'
  · rintro ⟨t, rfl⟩
    rw [apply_append_of_clear hold]
    exact List.prefix_append w _

/-- Such a text occurs as often after a replacement as before. -/
theorem occurrences_apply (hne : w ≠ []) (hold : Clear w p.old) (hnew : Clear w p.new) (s : Text) :
    occurrences w (p.apply s) = occurrences w s := by
  refine Rule.pass_induction (r := p.rule) (R := fun s t => occurrences w t = occurrences w s) rfl
    ?_ ?_ s
  · intro c s hnone ih
    have hkept : p.apply (c :: s) = c :: p.apply s := Rule.pass_cons_of_fire? hnone
    have hhead : w <+: c :: p.apply s ↔ w <+: c :: s := by
      rw [← hkept, isPrefix_apply_iff hold hnew]
    rw [occurrences_cons, ih, occurrences_cons w c s]
    exact congrArg _ (if_congr hhead rfl rfl)
  · intro x y rest hw ih
    obtain ⟨rfl, rfl⟩ := writes_rule hw
    rw [hnew.occurrences_append hne, hold.occurrences_append hne, ih]

end Replacement

namespace Text

/-- An occurrence of `w` can neither go on into `z` nor start in `z` and end behind it. -/
def Separates (w z : Text) : Prop :=
  (∀ u ∈ w.tail.tails, u ≠ [] → ¬ u <+: z ∧ ¬ z <+: u) ∧
    ∀ v ∈ z.tails, v ≠ [] → v <+: w → w <+: v

instance (w z : Text) : Decidable (Separates w z) := inferInstanceAs (Decidable (_ ∧ _))

section
variable {φ : Char → Text} {w : Text} (h : ∀ c, φ c = [c] ∨ Separates w (φ c))
include h

theorem isPrefix_of_isPrefix_flatMap {u t : Text} (hu : u ∈ w.tail.tails)
    (hut : u <+: t.flatMap φ) : u <+: t := by
  induction t generalizing u with
  | nil => simpa using hut
  | cons c t ih =>
    cases u with
    | nil => exact List.nil_prefix
    | cons d u =>
      rw [List.flatMap_cons] at hut
      rcases h c with hc | hc
      · rw [hc, List.singleton_append, List.cons_prefix_cons] at hut
        have hu' : u ∈ w.tail.tails :=
          (List.mem_tails _ _).2 ((List.suffix_cons d u).trans ((List.mem_tails _ _).1 hu))
        exact List.cons_prefix_cons.2 ⟨hut.1, ih hu' hut.2⟩
      · obtain ⟨hinto, hover⟩ := hc.1 _ hu (List.cons_ne_nil d u)
        rcases List.prefix_or_prefix_of_prefix hut (List.prefix_append (φ c) _) with hp | hp
        · exact absurd hp hinto
        · exact absurd hp hover

/-- No occurrence goes across what is written for a character, if none starts at that character and
    whatever is written for another one separates. -/
theorem noneAcross_flatMap {c : Char} {t : Text} (hw : ¬ w <+: c :: t) :
    NoneAcross w (φ c) (t.flatMap φ) := by
  intro u v huv hv hstart
  rcases h c with hc | hc
  · rw [hc, eq_comm, List.append_eq_singleton_iff] at huv
    obtain ⟨rfl, rfl⟩ := huv.resolve_right fun h => hv h.2
    cases w with
    | nil => exact absurd List.nil_prefix hw
    | cons d w =>
      rw [List.singleton_append, List.cons_prefix_cons] at hstart
      have htail : w <+: t :=
        isPrefix_of_isPrefix_flatMap h ((List.mem_tails _ _).2 List.suffix_rfl) hstart.2
      exact absurd (List.cons_prefix_cons.2 ⟨hstart.1, htail⟩) hw
  · rcases List.prefix_or_prefix_of_prefix hstart (List.prefix_append v _) with hp | hp
    · exact hp
    · exact hc.2 v ((List.mem_tails _ _).2 ⟨u, huv.symm⟩) hv hp

end

end Text

end TidyTex
