import TidyTex.Canonical
import TidyTex.Proofs.Fraction.Exponent

/-! Which fractions a limited number of promotions reaches, and what a run leaves behind.

    Each promotion takes the first fraction behind a superscript mark. Its opening brace goes right
    behind the mark, while its closing brace may go a long way off. But wherever that is, the text
    goes on with a closing brace there or ends, so no fraction further on is touched, and the next
    one becomes the first:

        ^\frac…  ^\frac…  ^\frac…    ──▶    ^{\frac…  ^\frac…  ^\frac…    ──▶    ^{\frac…  ^{\frac…

    So a run opens the leftmost fractions, as many as it has promotions (`openFirst`), and besides
    only adds closing braces next to others or at the end (`MoreClosed`). -/

namespace TidyTex.Fraction

open Text

/-- A text with an opening brace put behind the superscript mark of its first `n` fractions that
    have one, or of all of them. -/
def openFirst : Nat → Text → Text
  | 0, s => s
  | _ + 1, [] => []
  | n + 1, c :: s =>
    if exponentHead <+: c :: s then c :: '{' :: openFirst n s else c :: openFirst (n + 1) s

/-- The second text is the first with closing braces put in, each where that goes on with a closing
    brace or ends. -/
inductive MoreClosed : Text → Text → Prop where
  | nil : MoreClosed [] []
  | keep (c : Char) {s t : Text} (h : MoreClosed s t) : MoreClosed (c :: s) (c :: t)
  | close {s t : Text} (h : MoreClosed s t) (hs : s = [] ∨ ∃ u, s = '}' :: u) :
      MoreClosed s ('}' :: t)

/-! ### Closing braces -/

namespace MoreClosed

variable {s t u : Text}

theorem refl (s : Text) : MoreClosed s s := by
  induction s with
  | nil => exact .nil
  | cons c s ih => exact .keep c ih

/-- Where the second text goes on with a closing brace or ends, the first does. -/
theorem closes (h : MoreClosed s t) (ht : t = [] ∨ ∃ v, t = '}' :: v) :
    s = [] ∨ ∃ v, s = '}' :: v := by
  cases h with
  | nil => exact Or.inl rfl
  | @keep c s t h =>
    rcases ht with ht | ⟨v, ht⟩
    · cases ht
    · cases ht
      exact Or.inr ⟨s, rfl⟩
  | close h hs => exact hs

theorem append_left (x : Text) (h : MoreClosed s t) : MoreClosed (x ++ s) (x ++ t) := by
  induction x with
  | nil => exact h
  | cons c x ih => exact .keep c ih

theorem trans (h : MoreClosed s t) (h' : MoreClosed t u) : MoreClosed s u := by
  induction h' generalizing s with
  | nil => exact h
  | keep c _ ih =>
    cases h with
    | keep _ h => exact .keep c (ih h)
    | close h hs => exact .close (ih h) hs
  | close _ ht ih => exact .close (ih h) (h.closes ht)

end MoreClosed

/-! ### Opening braces -/

theorem openFirst_zero (s : Text) : openFirst 0 s = s := by
  rw [openFirst]

theorem openFirst_nil (n : Nat) : openFirst n [] = [] := by
  cases n with
  | zero => exact openFirst_zero []
  | succ n => rw [openFirst]

/-- At the head of no fraction nothing is opened. -/
theorem openFirst_cons_of_not_isPrefix {c : Char} {s : Text} (h : ¬ exponentHead <+: c :: s)
    (n : Nat) : openFirst n (c :: s) = c :: openFirst n s := by
  cases n with
  | zero => rw [openFirst_zero, openFirst_zero]
  | succ n => rw [openFirst, if_neg h]

theorem openFirst_cons_of_ne {c : Char} (h : c ≠ '^') (n : Nat) (s : Text) :
    openFirst n (c :: s) = c :: openFirst n s :=
  openFirst_cons_of_not_isPrefix (fun hp => h (List.cons_prefix_cons.1 hp).1.symm) n

/-- A text without fractions to promote is passed over, up to a character that could not continue
    one. -/
theorem openFirst_append_cons {c : Char} (hc : c ∉ command "frac") {x : Text}
    (hx : ¬ exponentHead <:+: x) (n : Nat) (y : Text) :
    openFirst n (x ++ c :: y) = x ++ openFirst n (c :: y) := by
  induction x with
  | nil => rfl
  | cons d x ih =>
    rw [List.infix_cons_iff, not_or] at hx
    have hp : ¬ exponentHead <+: d :: (x ++ c :: y) :=
      fun hp => hx.1 ((cons_isPrefix_append_cons_iff hc).1 hp)
    rw [List.cons_append, openFirst_cons_of_not_isPrefix hp, ih hx.2, List.cons_append]

/-- One more closing brace does not change which fractions are opened, where it is put in front of
    another one or at the end. -/
theorem moreClosed_openFirst_append {y : Text} (hy : y = [] ∨ ∃ u, y = '}' :: u) (n : Nat)
    (x : Text) : MoreClosed (openFirst n (x ++ y)) (openFirst n (x ++ '}' :: y)) := by
  have hclosing : '}' ∉ exponentHead := by decide
  induction x generalizing n with
  | nil =>
    rw [List.nil_append, List.nil_append, openFirst_cons_of_ne (by decide)]
    refine .close (.refl _) ?_
    rcases hy with rfl | ⟨u, rfl⟩
    · exact Or.inl (openFirst_nil n)
    · exact Or.inr ⟨openFirst n u, openFirst_cons_of_ne (by decide) n u⟩
  | cons c x ih =>
    have hp : exponentHead <+: c :: (x ++ '}' :: y) ↔ exponentHead <+: c :: (x ++ y) := by
      rw [← List.cons_append, isPrefix_append_cons_iff hclosing, ← List.cons_append]
      rcases hy with rfl | ⟨u, rfl⟩
      · rw [List.append_nil]
      · exact (isPrefix_append_cons_iff hclosing).symm
    by_cases hhead : exponentHead <+: c :: (x ++ y)
    · cases n with
      | zero =>
        have hrest := ih 0
        rw [openFirst_zero, openFirst_zero] at hrest ⊢
        exact .keep c hrest
      | succ n =>
        rw [List.cons_append, List.cons_append, openFirst, openFirst, if_pos hhead,
          if_pos (hp.2 hhead)]
        exact .keep c (.keep '{' (ih n))
    · rw [List.cons_append, List.cons_append, openFirst_cons_of_not_isPrefix hhead,
        openFirst_cons_of_not_isPrefix (mt hp.1 hhead)]
      exact .keep c (ih n)

/-- A promotion opens the first fraction, and the next ones are those that come next. -/
theorem moreClosed_openFirst_promoteOnce? {s t : Text} (h : promoteOnce? s = some t) (n : Nat) :
    MoreClosed (openFirst (n + 1) s) (openFirst n t) := by
  obtain ⟨a, b, c, hnone, hc, rfl, rfl⟩ := exists_of_promoteOnce? h
  have hmark : '^' ∉ command "frac" := by decide
  have hsource : openFirst (n + 1) (a ++ '^' :: (command "frac" ++ b ++ c)) =
      a ++ '^' :: '{' :: openFirst n (command "frac" ++ b ++ c) := by
    have hhead : exponentHead <+: '^' :: (command "frac" ++ b ++ c) := by
      rw [List.append_assoc]
      exact List.prefix_append exponentHead (b ++ c)
    rw [openFirst_append_cons hmark hnone, openFirst, if_pos hhead]
  have hresult : openFirst n (a ++ '^' :: (braced (command "frac" ++ b) ++ c)) =
      a ++ '^' :: '{' :: openFirst n (command "frac" ++ b ++ '}' :: c) := by
    have hno : ¬ exponentHead <+: '^' :: '{' :: (command "frac" ++ b ++ '}' :: c) := by
      intro hp
      exact absurd (List.cons_prefix_cons.1 (List.cons_prefix_cons.1 hp).2).1 (by decide)
    rw [braced_append, openFirst_append_cons hmark hnone, openFirst_cons_of_not_isPrefix hno,
      openFirst_cons_of_ne (by decide)]
  rw [hsource, hresult]
  exact .append_left a (.keep '^' (.keep '{' (moreClosed_openFirst_append hc n _)))

/-- A run opens the leftmost fractions, one with each of its promotions. -/
theorem moreClosed_openFirst_run (limit : Nat) (s : Text) :
    MoreClosed (openFirst (repeatAtMost promoteOnce? limit s).2 s)
      (repeatAtMost promoteOnce? limit s).1 := by
  induction limit generalizing s with
  | zero =>
    rw [repeatAtMost_zero, openFirst_zero]
    exact .refl s
  | succ limit ih =>
    cases h : promoteOnce? s with
    | none =>
      rw [repeatAtMost_of_none h, openFirst_zero]
      exact .refl s
    | some t =>
      rw [repeatAtMost_succ_of_some h]
      exact (moreClosed_openFirst_promoteOnce? h _).trans (ih t)

/-! ### What is put in -/

theorem sublist_promoteOnce? {s t : Text} (h : promoteOnce? s = some t) : s.Sublist t := by
  obtain ⟨a, b, c, rfl, rfl⟩ := promoteOnce?_cases h
  have hbraced : (command "frac" ++ b).Sublist (braced (command "frac" ++ b)) :=
    (List.sublist_append_left _ _).cons '{'
  exact ((List.Sublist.refl _).append hbraced).append (List.Sublist.refl c)

/-- A promotion keeps every character. -/
theorem promote_sublist (s : Text) : s.Sublist (promote s).1 := by
  refine repeatAtMost_induction (P := fun t => s.Sublist t) ?_ _ (List.Sublist.refl s)
  intro t u htu ht
  exact ht.trans (sublist_promoteOnce? htu)

theorem count_promoteOnce? {s t : Text} (h : promoteOnce? s = some t) (c : Char) :
    t.count c = s.count c + if isBrace c then 1 else 0 := by
  obtain ⟨a, b, r, rfl, rfl⟩ := promoteOnce?_cases h
  simp only [List.count_append, count_braced]
  omega

/-- Each promotion puts in one brace of either kind, and nothing else. -/
theorem count_promote (s : Text) (c : Char) :
    (promote s).1.count c = s.count c + if isBrace c then (promote s).2 else 0 := by
  have h := repeatAtMost_countup (List.count c) (fun hab => count_promoteOnce? hab c)
    maxPromotions s
  rw [promote, h]
  split
  · rw [Nat.mul_one]
  · rw [Nat.mul_zero]

/-- The number of fractions behind superscript marks, up to the limit. -/
def promotions (s : Text) : Nat := min (occurrences exponentHead s) maxPromotions

theorem promote_count (s : Text) : (promote s).2 = promotions s := by
  rw [(promote_countdown s).1, Nat.min_comm, promotions]

/-- The pass over fractions warns of nothing exactly when it had fewer promotions than its limit. -/
theorem warnings_promotePass_eq_nil_iff {s : Text} :
    (promotePass s).warnings = [] ↔ occurrences exponentHead s < maxPromotions := by
  have hlimit : Pass.exponentFractions.limit = maxPromotions := rfl
  simp only [promotePass, hlimit, promote_count, promotions]
  split
  · next h => exact iff_of_false (List.cons_ne_nil _ _) (by omega)
  · next h => exact iff_of_true rfl (by omega)

/-- Whatever braces a text has, a run promotes its leftmost fractions, all of them or as many as the
    limit allows: it puts in one brace of either kind for each of these and nothing else, and the
    other fractions stay behind their superscript marks. It warns exactly when the limit is reached,
    so none is left when it does not. -/
theorem promotePass_leftmost (s : Text) :
    s.Sublist (promotePass s).content ∧
      (∀ c, (promotePass s).content.count c =
        s.count c + if isBrace c then promotions s else 0) ∧
      MoreClosed (openFirst (promotions s) s) (promotePass s).content ∧
      occurrences exponentHead (promotePass s).content =
        occurrences exponentHead s - promotions s ∧
      ((promotePass s).warnings = [] ↔ occurrences exponentHead s < maxPromotions) ∧
      ((promotePass s).warnings = [] → ¬ exponentHead <:+: (promotePass s).content) ∧
      maxPromotions = 100 := by
  have hne : exponentHead ≠ [] := List.cons_ne_nil _ _
  have hleft : occurrences exponentHead (promotePass s).content =
      occurrences exponentHead s - promotions s := by
    have hrun := (promote_countdown s).2
    simp only [promotePass, promotions]
    omega
  have hcount := count_promote s
  have hopen := moreClosed_openFirst_run maxPromotions s
  rw [← promote, promote_count] at hopen
  rw [promote_count] at hcount
  refine ⟨promote_sublist s, hcount, hopen, hleft, warnings_promotePass_eq_nil_iff,
    fun hw => ?_, rfl⟩
  rw [warnings_promotePass_eq_nil_iff] at hw
  rw [← occurrences_eq_zero_iff hne, hleft, promotions]
  omega

end TidyTex.Fraction
