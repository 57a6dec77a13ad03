import Mathlib.Data.Nat.Find
import Mathlib.Order.Bounds.Basic
import TidyTex.Proofs.Command
import TidyTex.Proofs.Rule
import TidyTex.Spelling

/-! The search for whole names.

    A name in letters is whole where no further letter continues it. The search goes from one
    occurrence to the next, and to the next of those that do not overlap: it takes up behind an
    occurrence that it has turned down. An occurrence that begins inside of that one is not seen.

        name     aa
        text     aaa
                 ──┘     the first occurrence runs on in a letter
                  ──     the second one is whole, and begins inside the first

    So the search finds the first whole name whenever it comes to its place (`findsFirst_iff`). What
    may keep it from there is an overlap of the name with itself, in which the name runs on in a
    letter (`HidesItself`). Names without one are always found, and no others are; a command is such
    a name, as its backslash does not come again (`not_hidesItself_cons`). Since a name is removed
    for as long as it is found, the same names are those of which none is left
    (`wholeName_findsFirst_iff`). -/

namespace TidyTex.Text

/-- An occurrence of `name` starts at byte offset `p`, and if the name ends in a letter, no letter
    follows. -/
def WholeNameAt (name s : Text) (p : Nat) : Prop :=
  ∃ a b, s = a ++ (name ++ b) ∧ byteLength a = p ∧
    (name.getLast?.any Char.isAlpha = true → b.head?.any Char.isAlpha = false)

/-- The search finds the first place of a whole name, and it finds nothing when there is none. -/
structure FindsFirst (name s : Text) : Prop where
  some_iff : ∀ p, (Matching.wholeName.find? name s).map (byteLength ·.before) = some p ↔
    IsLeast {q | WholeNameAt name s q} p
  none_iff : Matching.wholeName.find? name s = none ↔ ∀ p, ¬ WholeNameAt name s p

/-- An end of the name is also a beginning of it, behind which the name goes on with a letter, while
    its last character is a letter, too. -/
structure HidesItself (name : Text) : Prop where
  letter : name.getLast?.any Char.isAlpha = true
  overlap : ∃ u v w c, v ≠ [] ∧ name = u ++ v ∧ name = v ++ c :: w ∧ c.isAlpha = true

/-- What goes from one occurrence of `name` to the next that does not overlap with it. -/
def sweep (name : Text) (hname : name ≠ []) : Rule := (Replacement.deletion name hname).rule

/-- The place at byte offset `p` is one that a sweep comes to. -/
def Reached (name : Text) (hname : name ≠ []) (s : Text) (p : Nat) : Prop :=
  ∃ a t, s = a ++ t ∧ byteLength a = p ∧ (sweep name hname).AppliesAt s t

variable {name s t : Text} {hname : name ≠ []} {k : Cut} {p : Nat}

theorem endsBefore_iff :
    endsBefore name t = true ↔
      (name.getLast?.any Char.isAlpha = true → t.head?.any Char.isAlpha = false) := by
  cases h : name.getLast?.any Char.isAlpha <;> simp [endsBefore, h]

theorem fire?_sweep_append (hname : name ≠ []) (t : Text) :
    (sweep name hname).fire? (name ++ t) = some ([], t) :=
  Rule.fire?_eq_some_iff.2 ⟨t, rfl, rfl⟩

theorem eq_append_of_fire?_sweep {y rest : Text}
    (h : (sweep name hname).fire? s = some (y, rest)) : s = name ++ rest := by
  obtain ⟨t, rfl, ht⟩ := Rule.fire?_eq_some_iff.1 h
  cases ht
  rfl

theorem not_isPrefix_of_fire?_sweep (h : (sweep name hname).fire? s = none) : ¬ name <+: s :=
  Replacement.not_isPrefix_of_fire?_eq_none h

/-! ### The search goes with the sweep -/

/-- Inside an occurrence that has been turned down, the search passes over everything. -/
theorem cutWholeName?_append (name x s : Text) :
    cutWholeName? name x.length (x ++ s) = (cutWholeName? name 0 s).map (·.prepend x) := by
  induction x with
  | nil =>
    have hid : (fun k : Cut => k.prepend []) = id := funext Cut.prepend_nil
    rw [hid, Option.map_id_apply]
    rfl
  | cons c x ih =>
    rw [List.length_cons, List.cons_append, cutWholeName?, ih, Option.map_map]
    rfl

theorem find?_wholeName_nil (hname : name ≠ []) : Matching.wholeName.find? name [] = none := by
  simp [Matching.find?, cutWholeName?, hname]

theorem find?_wholeName_cons {c : Char} (h : ¬ name <+: c :: s) :
    Matching.wholeName.find? name (c :: s) =
      (Matching.wholeName.find? name s).map (·.prepend [c]) := by
  rw [Matching.find?, cutWholeName?, after?_eq_none_iff.2 h]
  rfl

theorem find?_wholeName_append (hname : name ≠ []) (t : Text) :
    Matching.wholeName.find? name (name ++ t) =
      if endsBefore name t then some ⟨[], t⟩
      else (Matching.wholeName.find? name t).map (·.prepend name) := by
  obtain ⟨c, w, rfl⟩ := List.exists_cons_of_ne_nil hname
  have hafter : after? (c :: w) (c :: (w ++ t)) = some t := after?_eq_some_iff.2 rfl
  have hskip : cutWholeName? (c :: w) w.length (w ++ t) = _ := cutWholeName?_append (c :: w) w t
  rw [List.cons_append, Matching.find?, cutWholeName?, hafter]
  simp only [List.length_cons, Nat.add_sub_cancel, hskip, Option.map_map]
  rfl

/-- What the search finds is a whole name that a sweep comes to. -/
theorem appliesAt_of_find? (hname : name ≠ []) (h : Matching.wholeName.find? name s = some k) :
    (sweep name hname).AppliesAt s (name ++ k.after) ∧ endsBefore name k.after = true := by
  refine Rule.reading_induction (r := sweep name hname)
    (P := fun s => ∀ k, Matching.wholeName.find? name s = some k →
      (sweep name hname).AppliesAt s (name ++ k.after) ∧ endsBefore name k.after = true)
    ?_ ?_ ?_ s k h
  · intro k h
    rw [find?_wholeName_nil hname] at h
    cases h
  · intro c s hnone ih k h
    rw [find?_wholeName_cons (not_isPrefix_of_fire?_sweep hnone)] at h
    obtain ⟨j, hj, rfl⟩ := Option.map_eq_some_iff.1 h
    exact ⟨.keep hnone (ih j hj).1, (ih j hj).2⟩
  · intro s y rest hfire ih k h
    obtain rfl := eq_append_of_fire?_sweep hfire
    rw [find?_wholeName_append hname] at h
    split at h
    · next hends => cases h; exact ⟨.here hfire, hends⟩
    · obtain ⟨j, hj, rfl⟩ := Option.map_eq_some_iff.1 h
      exact ⟨.write hfire (ih j hj).1, (ih j hj).2⟩

/-- Where a sweep comes to a whole name, the search finds that one or an earlier one. -/
theorem find?_of_appliesAt (hat : (sweep name hname).AppliesAt s (name ++ t))
    (ht : endsBefore name t = true) :
    ∃ k, Matching.wholeName.find? name s = some k ∧ t.length ≤ k.after.length := by
  generalize hu : name ++ t = u at hat
  induction hat with
  | here hfire =>
    obtain rfl := eq_append_of_fire?_sweep hfire
    obtain rfl := List.append_cancel_left hu
    exact ⟨⟨[], t⟩, by rw [find?_wholeName_append hname, if_pos ht], Nat.le_refl _⟩
  | @keep c s _ hnone _ ih =>
    obtain ⟨k, hk, hle⟩ := ih hu
    refine ⟨k.prepend [c], ?_, hle⟩
    rw [find?_wholeName_cons (not_isPrefix_of_fire?_sweep hnone), hk, Option.map_some]
  | @write s y rest _ hfire hat ih =>
    obtain rfl := eq_append_of_fire?_sweep hfire
    by_cases hends : endsBefore name rest = true
    · refine ⟨⟨[], rest⟩, by rw [find?_wholeName_append hname, if_pos hends], ?_⟩
      have hle := hat.isSuffix.length_le
      rw [← hu, List.length_append] at hle
      exact Nat.le_trans (Nat.le_add_left _ _) hle
    · obtain ⟨k, hk, hle⟩ := ih hu
      refine ⟨k.prepend name, ?_, hle⟩
      rw [find?_wholeName_append hname, if_neg hends, hk, Option.map_some]

/-! ### The first whole name -/

/-- A text splits in one way only at a byte offset. -/
theorem eq_of_byteLength_eq {a b u : Text} (h : a ++ t = b ++ u)
    (hbytes : byteLength a = byteLength b) : a = b ∧ t = u := by
  have hfirst : cutAt? (a ++ t) (byteLength a) = some ⟨a, t⟩ := cutAt?_eq_some_iff.2 ⟨rfl, rfl⟩
  have hsecond : cutAt? (a ++ t) (byteLength a) = some ⟨b, u⟩ :=
    cutAt?_eq_some_iff.2 ⟨h, hbytes.symm⟩
  rw [hfirst] at hsecond
  cases hsecond
  exact ⟨rfl, rfl⟩

/-- With more text behind it, a place is at a smaller offset. -/
theorem byteLength_le_of_length_le {a b u : Text} (h : a ++ t = b ++ u)
    (hle : u.length ≤ t.length) : byteLength a ≤ byteLength b := by
  have hlength := congrArg List.length h
  rw [List.length_append, List.length_append] at hlength
  have hprefix : a <+: b :=
    List.prefix_of_prefix_length_le (h ▸ List.prefix_append a t) (List.prefix_append b u) (by omega)
  exact byteLength_le_of_sublist hprefix.sublist

theorem eq_append_of_find? (h : Matching.wholeName.find? name s = some k) :
    s = k.before ++ (name ++ k.after) := by
  rw [← List.append_assoc]
  exact Matching.append_of_find? h

theorem wholeNameAt_of_find? (hname : name ≠ []) (h : Matching.wholeName.find? name s = some k) :
    WholeNameAt name s (byteLength k.before) := by
  have hends := (appliesAt_of_find? hname h).2
  exact ⟨k.before, k.after, eq_append_of_find? h, rfl, endsBefore_iff.1 hends⟩

/-- A whole name in a place that the sweep comes to is not before the one that the search finds. -/
theorem find?_of_reached (hp : WholeNameAt name s p) (hreached : Reached name hname s p) :
    ∃ k, Matching.wholeName.find? name s = some k ∧ byteLength k.before ≤ p := by
  obtain ⟨a, b, rfl, rfl, hends⟩ := hp
  obtain ⟨a', t, hsplit, hbytes, hat⟩ := hreached
  obtain ⟨rfl, rfl⟩ := eq_of_byteLength_eq hsplit hbytes.symm
  obtain ⟨k, hk, hle⟩ := find?_of_appliesAt hat (endsBefore_iff.2 hends)
  refine ⟨k, hk, byteLength_le_of_length_le (eq_append_of_find? hk).symm ?_⟩
  simpa using hle

theorem exists_isLeast (hp : WholeNameAt name s p) :
    ∃ q, IsLeast {r | WholeNameAt name s r} q := by
  classical
  exact ⟨Nat.find ⟨p, hp⟩, Nat.find_spec ⟨p, hp⟩, fun _ hq => Nat.find_min' ⟨p, hp⟩ hq⟩

/-- The search is right about a text exactly when the first whole name in it, if there is one, is in
    a place that the sweep comes to. -/
theorem findsFirst_iff (hname : name ≠ []) :
    FindsFirst name s ↔ ∀ p, IsLeast {q | WholeNameAt name s q} p → Reached name hname s p := by
  constructor
  · intro h p hp
    obtain ⟨k, hk, rfl⟩ := Option.map_eq_some_iff.1 ((h.some_iff p).2 hp)
    exact ⟨k.before, name ++ k.after, eq_append_of_find? hk, rfl, (appliesAt_of_find? hname hk).1⟩
  · intro h
    have hfound : ∀ {p}, IsLeast {q | WholeNameAt name s q} p →
        (Matching.wholeName.find? name s).map (byteLength ·.before) = some p := by
      intro p hp
      obtain ⟨k, hk, hle⟩ := find?_of_reached hp.1 (h p hp)
      rw [hk, Option.map_some, Nat.le_antisymm hle (hp.2 (wholeNameAt_of_find? hname hk))]
    refine ⟨fun p => ⟨fun hp => ?_, hfound⟩, fun hnone p hp => ?_, fun hno => ?_⟩
    · obtain ⟨k, hk, rfl⟩ := Option.map_eq_some_iff.1 hp
      obtain ⟨q, hq⟩ := exists_isLeast (wholeNameAt_of_find? hname hk)
      rw [hfound hq] at hp
      cases hp
      exact hq
    · obtain ⟨q, hq⟩ := exists_isLeast hp
      have hsome := hfound hq
      rw [hnone] at hsome
      cases hsome
    · cases hk : Matching.wholeName.find? name s with
      | none => rfl
      | some k => exact absurd (wholeNameAt_of_find? hname hk) (hno _)

/-! ### Names that hide themselves -/

/-- Where an occurrence begins inside an earlier one that is not whole, the name hides itself. -/
theorem hidesItself_of_overlap {x b rest : Text} (hx : x ++ (name ++ b) = name ++ rest)
    (hne : x ≠ []) (hlt : x.length < name.length) (hends : endsBefore name rest ≠ true) :
    HidesItself name := by
  have hpos := List.length_pos_iff.2 hne
  rw [Ne, endsBefore_iff, Classical.not_imp, Bool.not_eq_false] at hends
  rcases List.append_eq_append_iff.1 hx with ⟨v, hv, hrest⟩ | ⟨d, rfl, -⟩
  · have hlength := congrArg List.length hv
    rw [List.length_append] at hlength
    rcases List.append_eq_append_iff.1 hrest with ⟨d, hd, -⟩ | ⟨_ | ⟨c, w⟩, hw, rfl⟩
    · have hlength' := congrArg List.length hd
      rw [List.length_append] at hlength'
      omega
    · have hlength' := congrArg List.length hw
      rw [List.length_append, List.length_nil] at hlength'
      omega
    · have hvne : v ≠ [] := List.length_pos_iff.1 (by omega)
      exact ⟨hends.1, x, v, w, c, hvne, hv, hw, by simpa using hends.2⟩
  · rw [List.length_append] at hlt
    omega

/-- The sweep comes to the first whole name, unless it reads over that from an earlier occurrence,
    which is not whole. -/
theorem reached_of_isLeast (h : ¬ HidesItself name) (hp : IsLeast {q | WholeNameAt name s q} p) :
    Reached name hname s p := by
  obtain ⟨⟨a, b, rfl, rfl, -⟩, hleast⟩ := hp
  have hfire := Option.ne_none_iff_exists'.2 ⟨_, fire?_sweep_append hname b⟩
  rcases Rule.appliesAt_or_reads_over (List.suffix_append a (name ++ b)) hfire with
    hat | ⟨u, y, rest, hat, hu, hafter, hbefore⟩
  · exact ⟨a, name ++ b, rfl, rfl, hat⟩
  · obtain rfl := eq_append_of_fire?_sweep hu
    obtain ⟨d, hd⟩ := hat.isSuffix
    -- What has been read begins before the whole name and ends inside it.
    obtain ⟨x, hx⟩ : name ++ b <:+ name ++ rest :=
      List.suffix_of_suffix_length_le (List.suffix_append a _) ⟨d, hd⟩ (Nat.le_of_lt hbefore)
    have hlength := congrArg List.length hx
    simp only [List.length_append] at hlength hafter hbefore
    have hne : x ≠ [] := List.length_pos_iff.1 (by omega)
    refine absurd (hidesItself_of_overlap hx hne (by omega) fun hends => ?_) h
    have hle := hleast ⟨d, rest, hd.symm, rfl, endsBefore_iff.1 hends⟩
    rw [← hx, ← List.append_assoc] at hd
    rw [← List.append_cancel_right hd, byteLength_append] at hle
    have hpos := byteLength_pos hne
    omega

/-- Where a name hides itself, a text can have a whole name that the search does not find. -/
theorem HidesItself.exists_text (h : HidesItself name) :
    ∃ s p, Matching.wholeName.find? name s = none ∧ WholeNameAt name s p := by
  obtain ⟨hletter, u, v, w, c, hv, hu, hw, hc⟩ := h
  have hname : name ≠ [] := by simp [hw]
  have hends : endsBefore name (c :: w) = false := by simp [endsBefore, hletter, hc]
  have hrest : Matching.wholeName.find? name (c :: w) = none := by
    refine Option.eq_none_iff_forall_ne_some.2 fun k hk => ?_
    have hlength := congrArg List.length (Matching.append_of_find? hk)
    have hpos := List.length_pos_iff.2 hv
    rw [hw] at hlength
    simp only [List.length_append] at hlength
    omega
  have htext : u ++ name = name ++ c :: w := by
    conv => lhs; rw [hw, ← List.append_assoc, ← hu]
  refine ⟨u ++ name, byteLength u, ?_, u, [], by rw [List.append_nil], rfl, fun _ => rfl⟩
  rw [htext, find?_wholeName_append hname, hends, hrest]
  rfl

/-- A name whose first character does not come again does not hide itself. -/
theorem not_hidesItself_cons {c : Char} {w : Text} (h : c ∉ w) : ¬ HidesItself (c :: w) := by
  rintro ⟨-, u, v, x, d, hv, hu, hx, -⟩
  obtain ⟨e, v, rfl⟩ := List.exists_cons_of_ne_nil hv
  obtain ⟨rfl, -⟩ := List.cons.inj hx
  cases u with
  | nil =>
    rw [hu] at hx
    simp at hx
  | cons b u =>
    obtain ⟨-, rfl⟩ := List.cons.inj hu
    simp at h

/-! ### Names that are always found -/

/-- The search is right about a text where the first whole name is in a place that a sweep comes to.
    It is right about all texts, and removing a name leaves no whole one, for the names that do not
    hide themselves. -/
theorem wholeName_findsFirst_iff (hname : name ≠ []) :
    (∀ s, FindsFirst name s ↔
      ∀ p, IsLeast {q | WholeNameAt name s q} p → Reached name hname s p) ∧
    ((∀ s, FindsFirst name s) ↔ ¬ HidesItself name) ∧
    ((∀ r s p, ¬ WholeNameAt name (removeCommand .wholeName r name s) p) ↔
      ¬ HidesItself name) := by
  have hfinds : ¬ HidesItself name → ∀ s, FindsFirst name s :=
    fun h s => (findsFirst_iff hname).2 fun p hp => reached_of_isLeast h hp
  refine ⟨fun s => findsFirst_iff hname, ⟨fun hall h => ?_, hfinds⟩, fun hall h => ?_,
    fun h r s => ?_⟩
  · obtain ⟨s, p, hnone, hp⟩ := h.exists_text
    exact (hall s).none_iff.1 hnone p hp
  · obtain ⟨s, p, hnone, hp⟩ := h.exists_text
    have hkept : removeCommand .wholeName .delete name s = s := by
      have honce : removeOnce? .wholeName .delete name s = none :=
        Option.map_eq_none_iff.2 hnone
      rw [removeCommand, if_neg hname, repeatAtMost_of_none honce]
    exact hall .delete s p (by rwa [hkept])
  · exact (hfinds h _).none_iff.1 (find?_removeCommand hname)

/-- A command in letters is found wherever it is first, so `\hatch` does not keep `\hat` from being
    removed. -/
theorem wholeName_findsFirst_hat :
    command "hat" ≠ [] ∧ (∀ s, FindsFirst (command "hat") s) ∧
      ∀ r s p, ¬ WholeNameAt (command "hat") (removeCommand .wholeName r (command "hat") s) p := by
  have hname : command "hat" ≠ [] := List.cons_ne_nil _ _
  have hhides : ¬ HidesItself (command "hat") := not_hidesItself_cons (by decide)
  obtain ⟨-, hfinds, hremoves⟩ := wholeName_findsFirst_iff hname
  exact ⟨hname, hfinds.2 hhides, hremoves.2 hhides⟩

/-- In `aaa` the `aa` at the end is not found, and it is not removed. -/
theorem not_findsFirst_aa :
    ¬ FindsFirst "aa".toList "aaa".toList ∧
      WholeNameAt "aa".toList (removeCommand .wholeName .unwrap "aa".toList "aaa".toList) 1 := by
  have hwhole : WholeNameAt "aa".toList "aaa".toList 1 := ⟨['a'], [], rfl, rfl, fun _ => rfl⟩
  have hnone : Matching.wholeName.find? "aa".toList "aaa".toList = none := by decide
  have hkept : removeCommand .wholeName .unwrap "aa".toList "aaa".toList = "aaa".toList := by
    decide
  exact ⟨fun h => h.none_iff.1 hnone 1 hwhole, hkept.symm ▸ hwhole⟩

end TidyTex.Text
