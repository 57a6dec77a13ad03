import TidyTex.Proofs.Spelling.LetterBar
import TidyTex.Proofs.Vector.Flattening

/-! Bars that vectors take back.

    A letter that is given a bar has it taken out again if it stands in the argument of a vector:

        I\vec{I}    ──▶    \bar{I}\vec{\bar{I}}    ──▶    \bar{I}\vec{I}

    So the two steps together change a text wherever such a letter stands outside of the vectors,
    and wherever a vector has had a bar before (`flattenBars_barLetters_eq_self_iff`). Only a hundred
    vectors are visited. Beyond them letters keep the bars that they are given, and vectors the bars
    that they have. -/

namespace TidyTex.Vector

open Text

/-! ### One argument -/

/-- The first bar of an argument is taken out first. -/
theorem unbarred_append_bar {x : Text} (hx : ¬ command "bar" <:+: x) (y : Text) :
    unbarred (x ++ (command "bar" ++ y)) = unbarred (x ++ Removal.unwrap.remains y) := by
  have hfirst : cutFirst? (command "bar") (x ++ (command "bar" ++ y)) = some ⟨x, y⟩ :=
    cutFirst?_append_of_not_isInfix (by decide) hx y
  refine removeCommand_of_removeOnce? (List.cons_ne_nil _ _) ?_
  rw [removeOnce?, Matching.find?, hfirst, Option.map_some]

/-- The bar of a letter leaves the letter. -/
theorem unbarred_append_barred {x : Text} (hx : ¬ command "bar" <:+: x) {c : Char}
    (hc : isBrace c = false) (y : Text) :
    unbarred (x ++ (command "bar" ++ (braced [c] ++ y))) = unbarred (x ++ ([c] ++ y)) := by
  have hletter : Nests isBrace [c] := nests_of_not_seen fun d hd => by rwa [List.mem_singleton.1 hd]
  rw [unbarred_append_bar hx, Removal.remains_braced seesBraces_isBrace .unwrap hletter,
    Removal.kept]

/-- Letters that are given bars come back when the bars are taken out. -/
theorem unbarred_append_barLetters {x s : Text} (h : ¬ command "bar" <:+: x ++ s) :
    unbarred (x ++ barLetters s) = x ++ s := by
  have hbefore : ∀ {x s : Text}, ¬ command "bar" <:+: x ++ s → ¬ command "bar" <:+: x :=
    fun hxs hx => hxs (hx.trans (List.prefix_append _ _).isInfix)
  -- Bars are taken out from left to right, so the text that has been gone through has none.
  fun_induction barLetters s generalizing x with
  | case1 => exact unbarred_eq_self h
  | case2 s ih =>
    have hrest := ih (x := x ++ ['I']) (by rwa [List.append_assoc])
    rw [List.append_assoc, List.append_assoc] at hrest
    exact (unbarred_append_barred (hbefore h) (c := 'I') rfl (barLetters s)).trans hrest
  | case3 s ih =>
    have hrest := ih (x := x ++ ['e', '_']) (by rwa [List.append_assoc])
    rw [List.append_assoc, List.append_assoc] at hrest
    exact (unbarred_append_barred (hbefore h) (c := 'e') rfl ('_' :: barLetters s)).trans hrest
  | case4 s ih =>
    have hrest := ih (x := x ++ ['E', '_']) (by rwa [List.append_assoc])
    rw [List.append_assoc, List.append_assoc] at hrest
    exact (unbarred_append_barred (hbefore h) (c := 'E') rfl ('_' :: barLetters s)).trans hrest
  | case5 c s hunit hlower hupper ih =>
    have hmove : ∀ t, x ++ c :: t = (x ++ [c]) ++ t := fun t => by simp
    rw [hmove s] at h ⊢
    rw [hmove (barLetters s)]
    exact ih h

theorem unbarred_barLetters_eq_self_iff {s : Text} :
    unbarred (barLetters s) = s ↔ ¬ command "bar" <:+: s := by
  constructor
  · intro h
    rw [← h]
    exact not_isInfix_unbarred _
  · exact unbarred_append_barLetters (x := [])

/-! ### Outermost vectors -/

/-- A group whose letters are given bars ends where it did. -/
theorem groupBody_barLetters (t : Text) :
    groupBody 0 (barLetters (groupBody 0 t).before ++ barLetters (groupBody 0 t).after) =
      ⟨barLetters (groupBody 0 t).before, barLetters (groupBody 0 t).after⟩ := by
  refine groupBody_append_of_openAfter (t := t) ?_ ?_ ?_
  · obtain ⟨out, hout, -⟩ := openAfter_before_groupBody 0 t
    rw [openAfter_barLetters]
    exact Option.isSome_of_eq_some hout
  · intro h
    rwa [Nests, openAfter_barLetters]
  · rcases after_groupBody 0 t with h | ⟨u, h⟩ <;> rw [h] <;> rfl

/-- A vector with a bar on each letter around it and in it that is given one. -/
def Piece.barLetters (p : Piece) : Piece := ⟨Text.barLetters p.before, Text.barLetters p.argument⟩

/-- Giving letters bars makes no vectors and breaks none. -/
theorem outermost_barLetters (s : Text) : outermost (barLetters s) =
    ⟨(outermost s).vectors.map Piece.barLetters, barLetters (outermost s).last⟩ := by
  have hspare : ∀ p ∈ letterBars, Spares opening p.old p.new := by decide
  have hback : ∀ {t}, opening <:+: barLetters t → opening <:+: t := by
    intro t h
    rw [← applyAll_letterBars] at h
    exact Replacement.isInfix_of_isInfix_applyAll hspare h
  induction s using outermost_induction with
  | none h =>
    have hnone := cutFirst?_eq_none_iff.2 (mt hback (cutFirst?_eq_none_iff.1 h))
    rw [outermost_of_none h, outermost_of_none hnone, List.map_nil]
  | @some s k h ih =>
    have hend : (groupBody 0 k.after).after.head? ≠ some '_' := fun hmark =>
      absurd (head?_after_groupBody 0 k.after '_' hmark) (by decide)
    have hopening : ∀ t, barLetters (opening ++ t) = opening ++ barLetters t := fun _ => rfl
    have hfirst : cutFirst? opening (barLetters k.before ++ (opening ++
        (barLetters (groupBody 0 k.after).before ++ barLetters (groupBody 0 k.after).after))) =
          some ⟨barLetters k.before, _⟩ :=
      cutFirst?_append_of_not_isInfix (by decide)
        (mt hback (not_isInfix_before_cutFirst? opening_ne_nil h)) _
    conv => lhs; rw [append_of_first h]
    rw [barLetters_append (by nofun), hopening, barLetters_append hend, outermost_of_some hfirst,
      groupBody_barLetters, ih, outermost_of_some h]
    rfl

/-! ### Texts that come back -/

/-- Whether an outermost vector comes back: it has had no bar if it is visited, and no letter to
    give one to if it is not. -/
structure Piece.Stays (visited : Prop) (p : Piece) : Prop where
  before : Unbarrable p.before
  bare : visited → ¬ command "bar" <:+: p.argument
  unbarrable : ¬ visited → Unbarrable p.argument

theorem stays_iff_of_visited {visited : Prop} (h : visited) {p : Piece} :
    p.Stays visited ↔ p.barLetters.unbarred = p := by
  obtain ⟨x, a⟩ := p
  rw [Piece.barLetters, Piece.unbarred, Piece.mk.injEq, barLetters_eq_self_iff,
    unbarred_barLetters_eq_self_iff]
  exact ⟨fun hp => ⟨hp.before, hp.bare h⟩, fun hp => ⟨hp.1, fun _ => hp.2, fun hn => absurd h hn⟩⟩

theorem stays_iff_of_not_visited {visited : Prop} (h : ¬ visited) {p : Piece} :
    p.Stays visited ↔ p.barLetters = p := by
  obtain ⟨x, a⟩ := p
  rw [Piece.barLetters, Piece.mk.injEq, barLetters_eq_self_iff, barLetters_eq_self_iff]
  exact ⟨fun hp => ⟨hp.before, hp.unbarrable h⟩,
    fun hp => ⟨hp.1, fun hv => absurd hv h, fun _ => hp.2⟩⟩

/-- Vectors come back one after the other, and each uses up the visits to itself and to the vectors
    in it. -/
theorem unbarFirst_barLetters_eq_iff (n : Nat) (vs : List Piece) :
    unbarFirst n (vs.map Piece.barLetters) = vs ↔
      ∀ ps p qs, vs = ps ++ p :: qs → p.Stays (vectorCount ps < n) := by
  induction vs generalizing n with
  | nil => simp [unbarFirst]
  | cons p vs ih =>
    rw [forall_append_cons_iff, vectorCount_nil, List.map_cons]
    cases n with
    | zero =>
      have hrest := ih 0
      have hzero : unbarFirst 0 (vs.map Piece.barLetters) = vs.map Piece.barLetters := by
        cases vs <;> rfl
      rw [hzero] at hrest
      simp only [Nat.not_lt_zero] at hrest ⊢
      rw [unbarFirst, List.cons.injEq, hrest, stays_iff_of_not_visited not_false]
    | succ n =>
      rw [unbarFirst, List.cons.injEq, stays_iff_of_visited n.succ_pos]
      refine and_congr_right fun hp => ?_
      have hvisits : p.barLetters.visits = 1 + occurrences opening p.argument :=
        congrArg (fun q : Piece => 1 + occurrences opening q.argument) hp
      rw [ih, hvisits]
      simp only [vectorCount_cons, Nat.lt_sub_iff_add_lt']

/-- Whether a text comes back when its letters are given bars and its vectors lose theirs. -/
structure BarsStay (s : Text) : Prop where
  last : Unbarrable (outermost s).last
  vectors : ∀ ps p qs, (outermost s).vectors = ps ++ p :: qs →
    p.Stays (vectorCount ps < maxOccurrences)

/-- A text comes back exactly if no letter is given a bar outside of vectors that are visited, and
    no vector that is visited has a bar. -/
theorem flattenBars_barLetters_eq_self_iff {s : Text} :
    flattenBars (barLetters s) = s ↔ BarsStay s := by
  have hclear : ∀ p ∈ letterBars, Clear opening p.old ∧ Clear opening p.new := by decide
  have hcut : flattenBars (barLetters s) = s ↔
      outermost (flattenBars (barLetters s)) = outermost s := by
    refine ⟨congrArg outermost, fun h => ?_⟩
    have htext := congrArg Pieces.text h
    rwa [text_outermost, text_outermost] at htext
  rw [hcut, outermost_flattenBars, outermost_barLetters,
    occurrences_barLetters opening_ne_nil hclear, Pieces.mk.injEq, unbarFirst_barLetters_eq_iff, barLetters_eq_self_iff]
  constructor
  · rintro ⟨hvectors, hlast⟩
    refine ⟨hlast, fun ps p qs h => ?_⟩
    have hp := hvectors ps p qs h
    rwa [Nat.lt_min, and_iff_left (vectorCount_lt h)] at hp
  · rintro ⟨hlast, hvectors⟩
    refine ⟨fun ps p qs h => ?_, hlast⟩
    rw [Nat.lt_min, and_iff_left (vectorCount_lt h)]
    exact hvectors ps p qs h

end TidyTex.Vector
