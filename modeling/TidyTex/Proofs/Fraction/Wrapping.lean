import TidyTex.Proofs.Fraction.Exponent

/-! Promotion as a recursion over the nesting of fractions.

    Where each fraction behind a superscript mark has two groups for its arguments, what promotion
    should make of a text can be said from the outside in, without a look at the rest of the braces
    (`Wraps`):

        ^\frac{a}{b}    ──▶    ^{\frac{a'}{b'}}        a' from a, and b' from b, in the same way

    A promotion takes one fraction after the other and begins with an outer one, whose arguments
    then stand in the text like any other part of it. What is to be made of the text as a whole
    stays the same with each step (`Wraps.of_promoteOnce?`), and when no fraction is left, the text
    is that itself (`wraps_iff_eq_promote`). -/

namespace TidyTex.Fraction

open Text

/-- Whether a text begins with two groups in each of which braces are balanced. -/
def TwoGroups (s : Text) : Prop :=
  ∃ a b t, BraceBalanced a ∧ BraceBalanced b ∧ s = braced a ++ (braced b ++ t)

/-- Whether each fraction behind a superscript mark has two groups right behind it. -/
def HasArguments (s : Text) : Prop := ∀ x y, s = x ++ (exponentHead ++ y) → TwoGroups y

/-- The second text is the first with one more pair of braces around each fraction that stands
    behind a superscript mark, arguments included. -/
inductive Wraps : Text → Text → Prop where
  | nil : Wraps [] []
  | keep {c : Char} {s t : Text} (hc : ¬ exponentHead <+: c :: s) (h : Wraps s t) :
      Wraps (c :: s) (c :: t)
  | fraction {a a' b b' s t : Text} (ha : BraceBalanced a) (hb : BraceBalanced b)
      (hwa : Wraps a a') (hwb : Wraps b b') (h : Wraps s t) :
      Wraps (exponentHead ++ (braced a ++ (braced b ++ s)))
        ('^' :: (braced (command "frac" ++ (braced a' ++ braced b')) ++ t))

/-! ### Arguments -/

/-- A balanced text ends at one closing brace at most. -/
theorem eq_of_append_closing_eq {a b s t : Text} (ha : BraceBalanced a) (hb : BraceBalanced b)
    (h : a ++ '}' :: s = b ++ '}' :: t) : a = b ∧ s = t := by
  have hcut := groupBody_of_openAfter seesBraces_isBrace (braceBalanced_iff_nests.1 ha) s
  rw [h, groupBody_of_openAfter seesBraces_isBrace (braceBalanced_iff_nests.1 hb) t] at hcut
  simp only [Cut.mk.injEq, List.cons.injEq, true_and] at hcut
  exact ⟨hcut.1.symm, hcut.2.symm⟩

/-- A group that begins where all open braces get closed ends before the brace behind. -/
theorem exists_of_append_closing_eq_braced {low : List Delimiter} {y a r s : Text}
    (hy : openAfter isBrace low y = some []) (ha : BraceBalanced a)
    (h : y ++ '}' :: r = braced a ++ s) :
    ∃ z, y = braced a ++ z ∧ s = z ++ '}' :: r ∧ openAfter isBrace low z = some [] := by
  rw [braced_append] at h
  cases y with
  | nil => exact absurd (List.cons.inj h).1 (by decide)
  | cons c y =>
    obtain ⟨rfl, h⟩ := List.cons.inj h
    obtain ⟨x, z, rfl, -, hx, hz⟩ := exists_group seesBraces_isBrace hy (Nat.zero_le _)
    have h : x ++ '}' :: (z ++ '}' :: r) = a ++ '}' :: s := by simpa using h
    obtain ⟨rfl, rfl⟩ := eq_of_append_closing_eq (braceBalanced_iff_nests.2 hx) ha h
    exact ⟨z, by rw [braced_append], rfl, hz⟩

theorem TwoGroups.append {s : Text} (h : TwoGroups s) (t : Text) : TwoGroups (s ++ t) := by
  obtain ⟨a, b, r, ha, hb, rfl⟩ := h
  exact ⟨a, b, r ++ t, ha, hb, by simp⟩

namespace HasArguments

variable {s t : Text}

theorem of_append (h : HasArguments (s ++ t)) : HasArguments t := by
  rintro x y rfl
  exact h (s ++ x) y (by simp)

/-- The arguments of fractions in a group are in that group. -/
theorem of_group {r : Text} (hs : BraceBalanced s) (h : HasArguments (s ++ '}' :: r)) :
    HasArguments s := by
  rintro x y rfl
  obtain ⟨a, b, t, ha, hb, hy⟩ := h x (y ++ '}' :: r) (by simp)
  rw [braceBalanced_iff_nests, Nests] at hs
  obtain ⟨low, -, hlow⟩ := openAfter_append_eq_some_iff.1 hs
  obtain ⟨mid, -, hmid⟩ := openAfter_append_eq_some_iff.1 hlow
  obtain ⟨z, rfl, hz, hzopen⟩ := exists_of_append_closing_eq_braced hmid ha hy
  obtain ⟨u, rfl, -, -⟩ := exists_of_append_closing_eq_braced hzopen hb hz.symm
  exact ⟨a, b, u, ha, hb, rfl⟩

/-- Inside a group and behind it, fractions have their arguments as in the whole text. -/
theorem of_braced {x : Text} (hs : BraceBalanced s) (h : HasArguments (x ++ (braced s ++ t))) :
    HasArguments s ∧ HasArguments t := by
  have hgroup : x ++ (braced s ++ t) = (x ++ ['{']) ++ (s ++ '}' :: t) := by simp [braced]
  have hbehind : x ++ (braced s ++ t) = (x ++ braced s) ++ t := by simp
  rw [hgroup] at h
  refine ⟨of_group hs h.of_append, ?_⟩
  rw [← hgroup, hbehind] at h
  exact h.of_append

end HasArguments

/-- With arguments behind each fraction, there is something to be made of the text. -/
theorem exists_wraps {s : Text} (h : HasArguments s) : ∃ t, Wraps s t := by
  induction hn : s.length using Nat.strongRecOn generalizing s with
  | _ n ih =>
    cases s with
    | nil => exact ⟨[], .nil⟩
    | cons c s =>
      by_cases hp : exponentHead <+: c :: s
      · obtain ⟨y, hy⟩ := hp
        obtain ⟨a, b, r, ha, hb, rfl⟩ := h [] y hy.symm
        rw [← hy] at h hn ⊢
        obtain ⟨hargs, hbehind⟩ := h.of_braced ha
        obtain ⟨hbargs, hrargs⟩ := HasArguments.of_braced (x := []) hb hbehind
        simp only [List.length_append, braced, List.length_cons, List.length_nil] at hn
        obtain ⟨a', hwa⟩ := ih a.length (by omega) hargs rfl
        obtain ⟨b', hwb⟩ := ih b.length (by omega) hbargs rfl
        obtain ⟨t, ht⟩ := ih r.length (by omega) hrargs rfl
        exact ⟨_, .fraction ha hb hwa hwb ht⟩
      · obtain ⟨t, ht⟩ := ih s.length (by rw [← hn]; exact Nat.lt_succ_self _)
          (HasArguments.of_append (s := [c]) h) rfl
        exact ⟨c :: t, .keep hp ht⟩

/-! ### One promotion -/

/-- Counting depth from inside a group is looking for the end of the group. -/
theorem cutGroups_of_groupBody {depth : Nat} {s x t : Text}
    (h : groupBody depth s = ⟨x, '}' :: t⟩) (groups : Nat) :
    cutGroups groups (depth + 1) s =
      if groups = 1 then ⟨x, '}' :: t⟩
      else (cutGroups (groups - 1) 0 t).prepend (x ++ ['}']) := by
  fun_induction groupBody depth s generalizing x with
  | case1 => cases h
  | case2 depth s ih =>
    cases hk : groupBody (depth + 1) s
    rw [hk] at h ih
    cases h
    have hdeeper : cutGroups groups (depth + 1 + 1) s = _ := ih rfl
    rw [cutGroups, hdeeper]
    split <;> rfl
  | case3 s =>
    cases h
    rw [cutGroups]
    rfl
  | case4 depth s ih =>
    cases hk : groupBody depth s
    rw [hk] at h ih
    cases h
    have hne : ¬ ((depth + 1 : Nat) : Int) + 1 = 1 := by omega
    have hout : ((depth + 1 : Nat) : Int) + 1 - 1 = depth + 1 := by omega
    rw [cutGroups, if_neg hne, hout, ih rfl]
    split <;> rfl
  | case5 depth c s ho hz hc ih =>
    cases hk : groupBody depth s
    rw [hk] at h ih
    cases h
    have hclosing : c ≠ '}' := by
      cases depth with
      | zero => exact hz rfl
      | succ depth => exact hc depth rfl
    rw [cutGroups, ih rfl]
    · split <;> rfl
    · exact ho
    · exact hclosing

/-- A group is counted as one, whatever groups it holds. -/
theorem cutGroups_braced {a : Text} (ha : BraceBalanced a) (groups : Nat) (s : Text) :
    cutGroups groups 0 (braced a ++ s) =
      if groups = 1 then ⟨'{' :: a, '}' :: s⟩
      else (cutGroups (groups - 1) 0 s).prepend (braced a) := by
  have hbody := groupBody_of_openAfter seesBraces_isBrace (braceBalanced_iff_nests.1 ha) s
  have hcut : cutGroups groups (0 + 1) (a ++ '}' :: s) = _ := cutGroups_of_groupBody hbody groups
  rw [braced_append, cutGroups, hcut]
  split
  · rfl
  · rw [Cut.prepend_prepend]
    rfl

/-- The first fraction with two groups behind it is promoted with these. -/
theorem promoteOnce?_fraction {a b : Text} (ha : BraceBalanced a) (hb : BraceBalanced b)
    (s : Text) :
    promoteOnce? (exponentHead ++ (braced a ++ (braced b ++ s))) =
      some ('^' :: (braced (command "frac" ++ (braced a ++ braced b)) ++ s)) := by
  rw [promoteOnce?, cutFirst?_append, Option.map_some, cutGroups_braced ha, if_neg (by decide),
    cutGroups_braced hb, if_pos rfl]
  simp [braced]

/-- A character that is no superscript mark in front of a fraction is passed over. -/
theorem promoteOnce?_cons {c : Char} {s : Text} (h : ¬ exponentHead <+: c :: s) :
    promoteOnce? (c :: s) = (promoteOnce? s).map (c :: ·) := by
  rw [promoteOnce?, cutFirst?_cons_of_not_isPrefix h, Option.map_map, promoteOnce?, Option.map_map]
  rfl

/-- A promotion further on brings no fraction behind a superscript mark. -/
theorem not_isPrefix_cons_of_promoteOnce? {c : Char} {s t : Text}
    (h : ¬ exponentHead <+: c :: s) (ht : promoteOnce? s = some t) : ¬ exponentHead <+: c :: t := by
  obtain ⟨a, b, r, rfl, rfl⟩ := promoteOnce?_cases ht
  rw [List.append_assoc, braced_append, ← List.cons_append, isPrefix_append_cons_iff (by decide)]
  refine fun hp => h (hp.trans ?_)
  rw [List.append_assoc, ← List.cons_append]
  exact List.prefix_append _ _

namespace Wraps

variable {a a' s t u : Text}

theorem cons_of_ne {c : Char} (hc : c ≠ '^') (h : Wraps s t) : Wraps (c :: s) (c :: t) :=
  .keep (fun hp => hc (List.cons_prefix_cons.1 hp).1.symm) h

theorem append_of_notMem {x : Text} (hx : '^' ∉ x) (h : Wraps s t) :
    Wraps (x ++ s) (x ++ t) := by
  induction x with
  | nil => exact h
  | cons c x ih =>
    rw [List.mem_cons, not_or] at hx
    exact cons_of_ne (Ne.symm hx.1) (ih hx.2)

/-- No fraction reaches over a closing brace that is not the end of its arguments. -/
theorem append_closing (ha : Wraps a a') (h : Wraps s t) :
    Wraps (a ++ '}' :: s) (a' ++ '}' :: t) := by
  induction ha with
  | nil => exact cons_of_ne (by decide) h
  | @keep c x x' hc _ ih =>
    have hhead : ¬ exponentHead <+: (c :: x) ++ '}' :: s := by
      rwa [isPrefix_append_cons_iff (by decide)]
    exact .keep hhead ih
  | fraction ha hb hwa hwb _ _ _ ih =>
    have hwhole := Wraps.fraction ha hb hwa hwb ih
    simpa using hwhole

theorem group (ha : Wraps a a') (h : Wraps s t) : Wraps (braced a ++ s) (braced a' ++ t) := by
  rw [braced_append, braced_append]
  exact cons_of_ne (by decide) (ha.append_closing h)

/-- What is to be made of a text is to be made of it still when a fraction has been promoted. -/
theorem of_promoteOnce? (h : Wraps s u) (ht : promoteOnce? s = some t) : Wraps t u := by
  induction h generalizing t with
  | nil => cases ht
  | @keep c s u hc h ih =>
    rw [promoteOnce?_cons hc] at ht
    obtain ⟨v, hv, rfl⟩ := Option.map_eq_some_iff.1 ht
    exact .keep (not_isPrefix_cons_of_promoteOnce? hc hv) (ih hv)
  | @fraction a a' b b' s u ha hb hwa hwb h =>
    rw [promoteOnce?_fraction ha hb] at ht
    cases ht
    have hno : ¬ exponentHead <+:
        '^' :: (braced (command "frac" ++ (braced a ++ braced b)) ++ s) := by
      intro hp
      exact absurd (List.cons_prefix_cons.1 (List.cons_prefix_cons.1 hp).2).1 (by decide)
    have hargs : Wraps (braced a ++ braced b) (braced a' ++ braced b') := by
      have hwb' := hwb.group .nil
      rw [List.append_nil, List.append_nil] at hwb'
      exact hwa.group hwb'
    exact .keep hno ((append_of_notMem (by decide) hargs).group h)

/-- Something can be made of a text only where each fraction has its arguments. -/
theorem hasArguments (h : Wraps s t) : HasArguments s := by
  induction h with
  | nil =>
    intro x y hy
    cases x <;> cases hy
  | @keep c s t hc _ ih =>
    intro x y hy
    cases x with
    | nil => exact absurd ⟨y, hy.symm⟩ hc
    | cons d x =>
      obtain ⟨rfl, hrest⟩ := List.cons.inj hy
      exact ih x y hrest
  | @fraction a a' b b' s t ha hb _ _ _ iha ihb ih =>
    have hall : exponentHead.all (fun c => !isBrace c) = true := by decide
    have hw : ∀ c ∈ exponentHead, isBrace c = false := by simpa using hall
    have hne : exponentHead ≠ [] := List.cons_ne_nil _ _
    intro x y hy
    rcases append_braced_cases hw hne hy with ⟨z, hx, rfl⟩ | ⟨u, v, -, hin, rfl⟩ | ⟨u, -, hin⟩
    · have hlen := congrArg List.length hx
      simp only [List.length_append] at hlen
      obtain rfl : z = [] := List.length_eq_zero_iff.1 (by omega)
      exact ⟨a, b, s, ha, hb, rfl⟩
    · exact (iha u v hin).append _
    · rcases append_braced_cases (x := []) hw hne hin with
        ⟨z, hnil, -⟩ | ⟨v, z, -, hinb, rfl⟩ | ⟨v, -, hins⟩
      · simp [exponentHead] at hnil
      · exact (ihb v z hinb).append _
      · exact ih v y hins

/-- Where no fraction is left to promote, there is nothing to be made of the text but itself. -/
theorem eq_of_not_isInfix (h : Wraps s t) (hs : ¬ exponentHead <:+: s) : t = s := by
  induction h with
  | nil => rfl
  | keep _ _ ih =>
    rw [List.infix_cons_iff, not_or] at hs
    rw [ih hs.2]
  | fraction => exact absurd (List.prefix_append exponentHead _).isInfix hs

end Wraps

/-- Where there are no more fractions to promote than the limit allows, and each of them has its two
    arguments behind it in groups, promotion puts one more pair of braces around each of them,
    arguments included, and changes nothing else. -/
theorem wraps_iff_eq_promote {s : Text} (hcount : occurrences exponentHead s ≤ maxPromotions)
    (hargs : HasArguments s) (t : Text) :
    (Wraps s t ↔ t = (promote s).1) ∧ maxPromotions = 100 := by
  have hnone : ¬ exponentHead <:+: (promote s).1 := by
    have hne : exponentHead ≠ [] := List.cons_ne_nil _ _
    rw [← occurrences_eq_zero_iff hne, (promote_countdown s).2]
    omega
  have hpromote : ∀ {u}, Wraps s u → u = (promote s).1 := by
    intro u hu
    have hrun : Wraps (promote s).1 u :=
      repeatAtMost_induction (P := fun t => Wraps t u) (fun hab ha => ha.of_promoteOnce? hab)
        maxPromotions hu
    exact hrun.eq_of_not_isInfix hnone
  refine ⟨⟨hpromote, ?_⟩, rfl⟩
  rintro rfl
  obtain ⟨u, hu⟩ := exists_wraps hargs
  rwa [← hpromote hu]

/-- In `x^\frac{y^\frac{1}{2}}{3}` one fraction stands in the numerator of another, and a brace in
    front of them is never closed. -/
theorem wraps_iff_eq_promote_nested :
    occurrences exponentHead "\x7bx^\\frac\x7by^\\frac{1}{2}\x7d{3}".toList ≤ maxPromotions ∧
      HasArguments "\x7bx^\\frac\x7by^\\frac{1}{2}\x7d{3}".toList ∧
      (promote "\x7bx^\\frac\x7by^\\frac{1}{2}\x7d{3}".toList).1 =
        "\x7bx^\x7b\\frac\x7by^\x7b\\frac{1}{2}\x7d\x7d{3}\x7d".toList := by
  have hcount : occurrences exponentHead "\x7bx^\\frac\x7by^\\frac{1}{2}\x7d{3}".toList ≤
      maxPromotions := by decide
  have hdigit : ∀ c, c ≠ '^' → Wraps [c] [c] := fun c hc => .cons_of_ne hc .nil
  have hinner : Wraps "y^\\frac{1}{2}".toList "y^\x7b\\frac{1}{2}\x7d".toList :=
    .cons_of_ne (by decide) (.fraction (a := ['1']) (b := ['2']) (by decide) (by decide)
      (hdigit '1' (by decide)) (hdigit '2' (by decide)) .nil)
  have houter : Wraps "\x7bx^\\frac\x7by^\\frac{1}{2}\x7d{3}".toList
      "\x7bx^\x7b\\frac\x7by^\x7b\\frac{1}{2}\x7d\x7d{3}\x7d".toList :=
    .cons_of_ne (by decide) (.cons_of_ne (by decide) (.fraction (b := ['3']) (by decide) (by decide)
      hinner (hdigit '3' (by decide)) .nil))
  exact ⟨hcount, houter.hasArguments,
    ((wraps_iff_eq_promote hcount houter.hasArguments _).1.1 houter).symm⟩

end TidyTex.Fraction
