import Mathlib.Algebra.Order.BigOperators.Group.List
import Mathlib.Algebra.Order.Ring.Nat
import Mathlib.Data.List.Forall2
import TidyTex.Proofs.Vector.Outermost

/-! What flattening does to the vectors of a text.

    Vectors are visited by their numbers, and the number of visits is that of the vectors at the
    beginning. A visit to an outermost vector takes the bars out of its argument. Vectors in there
    are visited next, in vain, as their arguments have no bars left, and then comes the next
    outermost vector. So flattening works off the outermost vectors, and each of them uses up one
    visit and one for every vector that its argument now holds (`outermost_flattenBars`):

        \vec{\v\barec{a}}\vec{\bar{b}}    two visits at the beginning
        \vec{\vec{a}}\vec{\bar{b}}        the second one goes to the vector that has just appeared

    What is outside of the outermost arguments never changes, and inside them nothing is lost but
    bars and braces (`unwraps_outermost_flattenBars`). Bars remain where the visits do not suffice,
    and nowhere else (`barFree_flattenBars_iff`). -/

namespace TidyTex.Vector

open Text

/-- An argument with its bars taken out. -/
def unbarred (a : Text) : Text := removeCommand .anywhere .unwrap (command "bar") a

/-- The vector with the bars taken out of its argument. -/
def Piece.unbarred (p : Piece) : Piece := ⟨p.before, Vector.unbarred p.argument⟩

/-- The visits to a vector whose bars are taken out: one to itself, and one to each vector that is
    then in its argument. -/
def Piece.visits (p : Piece) : Nat := 1 + occurrences opening (Vector.unbarred p.argument)

/-- Takes the bars out of the first of some vectors, with a number of visits to spend. -/
def unbarFirst : Nat → List Piece → List Piece
  | _, [] => []
  | 0, p :: ps => p :: ps
  | n + 1, p :: ps => p.unbarred :: unbarFirst (n + 1 - p.visits) ps

theorem not_isInfix_unbarred (a : Text) : ¬ command "bar" <:+: unbarred a :=
  not_isInfix_removeCommand (List.cons_ne_nil _ _)

theorem unbarred_eq_self {a : Text} (h : ¬ command "bar" <:+: a) : unbarred a = a :=
  removeCommand_eq_self h

/-! ### One visit -/

theorem flattenNth_of_some {s : Text} {n : Nat} {k : Cut} (h : cutNth? opening n s = some k) :
    flattenNth s n = k.before ++
      (opening ++ (unbarred (groupBody 0 k.after).before ++ (groupBody 0 k.after).after)) := by
  simp [flattenNth, h, unbarred]

/-- The head of a text is not in the argument of a vector, so it stays. -/
theorem head?_flattenNth (s : Text) (n : Nat) : (flattenNth s n).head? = s.head? := by
  cases h : cutNth? opening n s with
  | none => rw [flattenNth_of_none h]
  | some k =>
    rw [flattenNth_of_some h]
    conv => rhs; rw [append_of_cutNth? h]
    simp [opening, command, List.head?_append]

/-- A vector behind a place that no vector goes across. -/
theorem flattenNth_append {x y : Text} (h : NoneAcross opening x y) (n : Nat) :
    flattenNth (x ++ y) (occurrences opening x + n) = x ++ flattenNth y n := by
  have hcut := h.cutNth?_append_add opening_ne_nil n
  cases hy : cutNth? opening n y with
  | none =>
    rw [hy, Option.map_none] at hcut
    rw [flattenNth_of_none hcut, flattenNth_of_none hy]
  | some k =>
    rw [hy, Option.map_some] at hcut
    rw [flattenNth_of_some hcut, flattenNth_of_some hy]
    simp

/-- A vector in an argument without bars. -/
theorem flattenNth_append_of_lt {u r : Text} (hgroup : groupBody 0 (u ++ r) = ⟨u, r⟩)
    (hacross : NoneAcross opening u r) (hbar : ¬ command "bar" <:+: u) {n : Nat}
    (hn : n < occurrences opening u) : flattenNth (u ++ r) n = u ++ r := by
  have hcut := hacross.cutNth?_append_of_lt opening_ne_nil hn
  cases hu : cutNth? opening n u with
  | none =>
    rw [hu, Option.map_none] at hcut
    exact flattenNth_of_none hcut
  | some k =>
    rw [hu, Option.map_some] at hcut
    have hk : u = k.before ++ (opening ++ k.after) := by simpa using append_of_cutNth? hu
    have hinfix := argument_isInfix hgroup hk
    rw [flattenNth_of_some hcut, unbarred_eq_self (mt (·.trans hinfix) hbar), groupBody_append]
    conv => rhs; rw [hk]
    simp

/-! ### One visit after the other -/

/-- Visits `count` vectors from number `start` on. -/
def visit (start count : Nat) (s : Text) : Text := (List.range' start count).foldl flattenNth s

theorem flattenBars_eq_visit (s : Text) :
    flattenBars s = visit 0 (min maxOccurrences (occurrences opening s)) s := by
  rw [flattenBars, findAll, if_neg opening_ne_nil, List.length_take, List.range_eq_range', visit,
    occurrences]

theorem visit_succ (start count : Nat) (s : Text) :
    visit start (count + 1) s = visit (start + 1) count (flattenNth s start) := by
  rw [visit, List.range'_succ, List.foldl_cons, visit]

theorem visit_add (start m n : Nat) (s : Text) :
    visit start (m + n) s = visit (start + m) n (visit start m s) := by
  rw [visit, ← List.range'_append_1, List.foldl_append, visit, visit]

theorem head?_visit (start count : Nat) (s : Text) : (visit start count s).head? = s.head? := by
  refine List.foldlRecOn (motive := fun t : Text => t.head? = s.head?) _ _ rfl ?_
  intro t ht n _
  rw [head?_flattenNth, ht]

/-- Visits to vectors behind a place that no vector goes across, whatever the visits write there. -/
theorem visit_append {x y : Text} (h : ∀ t : Text, t.head? = y.head? → NoneAcross opening x t)
    (n count : Nat) : visit (occurrences opening x + n) count (x ++ y) = x ++ visit n count y := by
  induction count generalizing n y with
  | zero => rfl
  | succ count ih =>
    have hhead := head?_flattenNth y n
    rw [visit_succ, visit_succ, flattenNth_append (h y rfl), Nat.add_assoc]
    exact ih (fun t ht => h t (ht.trans hhead)) (n + 1)

/-- Visits to an argument without bars change nothing there, and then go on behind it. -/
theorem visit_argument {u r : Text} (hgroup : groupBody 0 (u ++ r) = ⟨u, r⟩)
    (hr : ∀ c ∈ r.head?, c = '}') (hbar : ¬ command "bar" <:+: u) (count : Nat) :
    visit 0 count (u ++ r) = u ++ visit 0 (count - occurrences opening u) r := by
  have hidle : ∀ m ≤ occurrences opening u, visit 0 m (u ++ r) = u ++ r := by
    intro m hm
    refine List.foldlRecOn (motive := (· = u ++ r)) _ _ rfl ?_
    rintro _ rfl n hn
    have hlt := (List.mem_range'_1.1 hn).2
    exact flattenNth_append_of_lt hgroup (noneAcross_closing hr) hbar (by omega)
  rcases Nat.le_total count (occurrences opening u) with hle | hle
  · rw [hidle count hle, Nat.sub_eq_zero_of_le hle]
    rfl
  · obtain ⟨n, rfl⟩ := Nat.exists_eq_add_of_le hle
    rw [visit_add, hidle _ (Nat.le_refl _), Nat.zero_add, Nat.add_sub_cancel_left]
    exact visit_append (fun t ht => noneAcross_closing (by rwa [ht])) 0 n

/-- The group of a vector goes on to end in the same way when the bars in it are taken out and the
    text behind it begins as it did. -/
theorem groupBody_unbarred {t r : Text} (hr : r.head? = (groupBody 0 t).after.head?) :
    groupBody 0 (unbarred (groupBody 0 t).before ++ r) = ⟨unbarred (groupBody 0 t).before, r⟩ := by
  have hbar : Nests isBrace (command "bar") := rfl
  exact groupBody_removeCommand hbar hr

/-- The first visit is to the first vector, the next ones are to the vectors in its argument, and
    all others to those behind it. -/
theorem visit_of_first {s : Text} {k : Cut} (h : cutFirst? opening s = some k) (count : Nat) :
    visit 0 (count + 1) s = k.before ++ (opening ++ (unbarred (groupBody 0 k.after).before ++
      visit 0 (count - occurrences opening (unbarred (groupBody 0 k.after).before))
        (groupBody 0 k.after).after)) := by
  have hskip := visit_append (fun t _ => noneAcross_opening k.before t)
    (y := unbarred (groupBody 0 k.after).before ++ (groupBody 0 k.after).after) 0 count
  rw [occurrences_before_first h, List.append_assoc, List.append_assoc] at hskip
  rw [visit_succ, flattenNth_of_some h]
  refine hskip.trans ?_
  rw [visit_argument (groupBody_unbarred rfl) (head?_after_groupBody 0 k.after)
    (not_isInfix_unbarred _)]

/-- Visits take the bars out of one outermost vector after the other, and change nothing else. -/
theorem outermost_visit (count : Nat) (s : Text) :
    outermost (visit 0 count s) =
      ⟨unbarFirst count (outermost s).vectors, (outermost s).last⟩ := by
  induction s using outermost_induction generalizing count with
  | none h =>
    rw [visit, foldl_flattenNth_of_none h, outermost_of_none h, unbarFirst]
  | some h ih =>
    cases count with
    | zero => simp [outermost_of_some h, Pieces.cons, visit, unbarFirst]
    | succ count =>
      rw [visit_of_first h, outermost_append h (groupBody_unbarred (head?_visit 0 _ _)), ih,
        outermost_of_some h]
      simp [Pieces.cons, unbarFirst, Piece.unbarred, Piece.visits, Nat.add_comm 1]

theorem outermost_flattenBars (s : Text) :
    outermost (flattenBars s) =
      ⟨unbarFirst (min maxOccurrences (occurrences opening s)) (outermost s).vectors,
        (outermost s).last⟩ := by
  rw [flattenBars_eq_visit, outermost_visit]

/-! ### What stays, and what is lost -/

/-- Bars and braces are taken out of a text one after the other, each where it then stands. -/
inductive Unwraps : Text → Text → Prop
  | refl (s : Text) : Unwraps s s
  | bar {x y t : Text} (h : Unwraps (x ++ y) t) : Unwraps (x ++ (command "bar" ++ y)) t
  | brace {x y t : Text} {c : Char} (hc : isBrace c = true) (h : Unwraps (x ++ y) t) :
      Unwraps (x ++ c :: y) t

namespace Unwraps

variable {s t u : Text}

theorem sublist (h : Unwraps s t) : t.Sublist s := by
  induction h with
  | refl s => exact List.Sublist.refl s
  | @bar x y t _ ih =>
    exact ih.trans ((List.Sublist.refl x).append (List.sublist_append_right _ y))
  | @brace x y t c _ _ ih =>
    exact ih.trans ((List.Sublist.refl x).append (List.sublist_cons_self c y))

theorem trans (hst : Unwraps s t) (htu : Unwraps t u) : Unwraps s u := by
  induction hst with
  | refl => exact htu
  | bar _ ih => exact bar (ih htu)
  | brace hc _ ih => exact brace hc (ih htu)

/-- One bar less, and the braces of its argument. -/
theorem remains (x y : Text) :
    Unwraps (x ++ command "bar" ++ y) (x ++ Removal.unwrap.remains y) := by
  rw [List.append_assoc]
  refine bar ?_
  rcases Removal.unwrap.remains_cases y with hy | ⟨z, rfl, hy⟩
  · rw [hy]
    exact refl _
  · rw [hy, Removal.kept]
    refine brace rfl ?_
    conv => lhs; rw [← groupBody_append 0 z]
    rcases after_groupBody 0 z with hz | ⟨w, hz⟩
    · simpa [hz] using refl (x ++ (groupBody 0 z).before)
    · have hclosing := brace (x := x ++ (groupBody 0 z).before) (c := '}') rfl (refl (_ ++ w))
      simpa [hz] using hclosing

end Unwraps

theorem unwraps_unbarred (a : Text) : Unwraps a (unbarred a) := by
  refine removeCommand_induction (P := Unwraps a) ?_ (.refl a)
  intro k hk
  exact hk.trans (.remains k.before k.after)

/-- What is true of an argument and itself, and of an argument and itself without bars, is true of
    the arguments before and after a number of visits. -/
theorem forall₂_unbarFirst {R : Text → Text → Prop} (hself : ∀ a, R a a)
    (hbar : ∀ a, R a (unbarred a)) (n : Nat) (ps : List Piece) :
    List.Forall₂ (fun p q => q.before = p.before ∧ R p.argument q.argument) ps
      (unbarFirst n ps) := by
  fun_induction unbarFirst n ps with
  | case1 => exact .nil
  | case2 p ps => exact List.forall₂_same.2 fun q _ => ⟨rfl, hself q.argument⟩
  | case3 n p ps ih => exact .cons ⟨rfl, hbar p.argument⟩ ih

/-- The pieces between the outermost vectors and behind them stay, and of the argument of each of
    those vectors nothing is lost but bars and braces. -/
theorem unwraps_outermost_flattenBars (s : Text) :
    (outermost s).text = s ∧ (outermost (flattenBars s)).text = flattenBars s ∧
      (outermost (flattenBars s)).last = (outermost s).last ∧
      List.Forall₂ (fun p q => q.before = p.before ∧
          q.argument.Sublist p.argument ∧ Unwraps p.argument q.argument)
        (outermost s).vectors (outermost (flattenBars s)).vectors := by
  refine ⟨text_outermost s, text_outermost _, ?_, ?_⟩
  · rw [outermost_flattenBars]
  · rw [outermost_flattenBars]
    refine forall₂_unbarFirst (R := fun a b => b.Sublist a ∧ Unwraps a b) ?_ ?_ _ _
    · exact fun a => ⟨List.Sublist.refl a, .refl a⟩
    · exact fun a => ⟨(unwraps_unbarred a).sublist, unwraps_unbarred a⟩

/-! ### Where bars remain -/

/-- Whether no vector has a bar in its argument. -/
def BarFree (s : Text) : Prop :=
  ∀ a t, s = a ++ (opening ++ t) → ¬ command "bar" <:+: (groupBody 0 t).before

theorem barFree_iff {s : Text} :
    BarFree s ↔ ∀ p ∈ (outermost s).vectors, ¬ command "bar" <:+: p.argument :=
  forall_argument_iff (P := (¬ command "bar" <:+: ·)) (fun huv hv hu => hv (hu.trans huv)) s

/-- What is to hold of every element of a list after those before it. -/
theorem forall_append_cons_iff {α : Type} {P : List α → α → Prop} {a : α} {l : List α} :
    (∀ xs x ys, a :: l = xs ++ x :: ys → P xs x) ↔
      P [] a ∧ ∀ xs x ys, l = xs ++ x :: ys → P (a :: xs) x := by
  constructor
  · intro h
    exact ⟨h [] a l rfl, fun xs x ys hl => h (a :: xs) x ys (congrArg (a :: ·) hl)⟩
  · rintro ⟨hfirst, hrest⟩ (_ | ⟨b, xs⟩) x ys h
    · obtain ⟨rfl, -⟩ := List.cons.inj h
      exact hfirst
    · obtain ⟨rfl, hl⟩ := List.cons.inj h
      exact hrest xs x ys hl

/-- Visits take out the bars of those vectors that are reached before the visits are used up. -/
theorem forall_unbarFirst_iff (n : Nat) (vs : List Piece) :
    (∀ p ∈ unbarFirst n vs, ¬ command "bar" <:+: p.argument) ↔
      ∀ ps p qs, vs = ps ++ p :: qs → command "bar" <:+: p.argument →
        (ps.map Piece.visits).sum < n := by
  fun_induction unbarFirst n vs with
  | case1 n => simp
  | case2 p vs =>
    simp only [Nat.not_lt_zero, imp_false]
    constructor
    · rintro h ps q qs hvs
      exact h q (by rw [hvs]; simp)
    · intro h q hq
      obtain ⟨ps, qs, hvs⟩ := List.append_of_mem hq
      exact h ps q qs hvs
  | case3 n p vs ih =>
    have hp : ¬ command "bar" <:+: p.unbarred.argument := not_isInfix_unbarred p.argument
    rw [List.forall_mem_cons, ih, and_iff_right hp, forall_append_cons_iff]
    simp only [List.map_nil, List.sum_nil, Nat.succ_pos, implies_true, true_and, List.map_cons,
      List.sum_cons, Nat.lt_sub_iff_add_lt']

/-- A bar is left in the argument of a vector exactly when the visits are used up before they come
    to it. There are as many of them as there are vectors at the beginning, or a hundred. -/
theorem barFree_flattenBars_iff (s : Text) :
    BarFree (flattenBars s) ↔
      ∀ ps p qs, (outermost s).vectors = ps ++ p :: qs → command "bar" <:+: p.argument →
        (ps.map Piece.visits).sum < min maxOccurrences (occurrences opening s) := by
  rw [barFree_iff, outermost_flattenBars, forall_unbarFirst_iff]

/-- Unwrapping the first argument makes up a vector, which is visited instead of the second one. -/
theorem not_barFree_flattenBars :
    occurrences opening "\\vec\x7b\\v\\barec{a}\x7d\\vec\x7b\\bar{b}\x7d".toList = 2 ∧
      flattenBars "\\vec\x7b\\v\\barec{a}\x7d\\vec\x7b\\bar{b}\x7d".toList =
        "\\vec\x7b\\vec{a}\x7d\\vec\x7b\\bar{b}\x7d".toList ∧
      ¬ BarFree (flattenBars "\\vec\x7b\\v\\barec{a}\x7d\\vec\x7b\\bar{b}\x7d".toList) := by
  have hresult : flattenBars "\\vec\x7b\\v\\barec{a}\x7d\\vec\x7b\\bar{b}\x7d".toList =
      "\\vec\x7b\\vec{a}\x7d\\vec\x7b\\bar{b}\x7d".toList := by decide
  refine ⟨by decide, hresult, ?_⟩
  rw [hresult]
  intro h
  exact h "\\vec\x7b\\vec{a}\x7d".toList "\\bar{b}\x7d".toList (by decide) (by decide)

/-- No bar is left if there are no more than a hundred vectors and none of the arguments has more
    vectors without its bars than with them. -/
theorem barFree_flattenBars {s : Text} (hs : occurrences opening s ≤ maxOccurrences)
    (hnew : ∀ p ∈ (outermost s).vectors,
      occurrences opening (unbarred p.argument) ≤ occurrences opening p.argument) :
    BarFree (flattenBars s) := by
  rw [barFree_iff, outermost_flattenBars, forall_unbarFirst_iff, Nat.min_eq_right hs]
  intro ps p qs hvs _
  refine Nat.lt_of_le_of_lt ?_ (vectorCount_lt hvs)
  refine List.sum_le_sum ?_
  intro q hq
  have hmem : q ∈ (outermost s).vectors := by
    rw [hvs]
    exact List.mem_append_left _ hq
  exact Nat.add_le_add_left (hnew q hmem) 1

end TidyTex.Vector
