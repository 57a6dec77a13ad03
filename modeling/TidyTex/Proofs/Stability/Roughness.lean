import Mathlib.Data.List.Lex
import Mathlib.Data.Prod.Lex
import TidyTex.Proofs.Fraction.Exponent
import TidyTex.Proofs.Fraction.Shorthand
import TidyTex.Proofs.Spelling.LetterBar
import TidyTex.Proofs.Stability.Lowering
import TidyTex.Proofs.Vector

/-! A measure by which respelling makes a text smoother.

    A text that respelling gives back could owe that to one pass that undoes another. All but a few
    passes are ruled out by the roughness of a text, which none of them raises. First in roughness
    comes the load, the characters added up with tolls that make a pair of braces a gain and a
    `\bar` with its braces free:

        -1    {            2    + - E
         0    } b a r v    3    ± ∓         1    all others

    Two spellings keep the load, and they undo each other in it. They are told apart by the first of
    the letters `e`, `v` and `O` that is another one, which goes down in this order:

        \epsilon   ──▶  \varepsilon        e goes down to v
        \varOmega  ──▶  \Omega             v goes down to O

    So if respelling gives a text back, no pass has found anything but letters to bar, bars in
    vectors and subscripts in vectors. -/

namespace TidyTex

open Text

/-! ### Load -/

/-- What a character adds to the load of a text. -/
def toll : Char → Int
  | '{' => -1
  | '}' | 'b' | 'a' | 'r' | 'v' => 0
  | '+' | '-' | 'E' => 2
  | '±' | '∓' => 3
  | _ => 1

/-- The tolls of all characters of a text together. -/
def load : Text → Int
  | [] => 0
  | c :: s => toll c + load s

@[simp] theorem load_nil : load [] = 0 := rfl

@[simp] theorem load_cons (c : Char) (s : Text) : load (c :: s) = toll c + load s := rfl

@[simp] theorem load_append (s t : Text) : load (s ++ t) = load s + load t := by
  induction s with
  | nil => rw [List.nil_append, load_nil, Int.zero_add]
  | cons c s ih => rw [List.cons_append, load_cons, ih, load_cons, Int.add_assoc]

theorem load_braced (s : Text) : load (braced s) = load s - 1 := by
  have hopening : toll '{' = -1 := rfl
  have hclosing : toll '}' = 0 := rfl
  simp only [braced, load_cons, load_append, load_nil, hopening, hclosing]
  omega

/-- Nothing but an opening brace is a gain. -/
theorem load_nonneg {s : Text} (h : '{' ∉ s) : 0 ≤ load s := by
  induction s with
  | nil => exact Int.le_refl 0
  | cons c s ih =>
    rw [List.mem_cons, not_or] at h
    have htoll : 0 ≤ toll c := by
      unfold toll
      split
      · exact absurd rfl h.1
      all_goals decide
    rw [load_cons]
    exact Int.add_nonneg htoll (ih h.2)

/-! ### Roughness -/

/-- The place of a letter in the order by which spellings of one load are told apart. -/
def initialRank? : Char → Option Nat
  | 'O' => some 0
  | 'v' => some 1
  | 'e' => some 2
  | _ => none

/-- The letters of a text that have a place in that order, by their places. -/
def initials (s : Text) : List Nat := s.filterMap initialRank?

theorem initials_append (s t : Text) : initials (s ++ t) = initials s ++ initials t :=
  List.filterMap_append

/-- A pass that keeps these letters keeps their places. -/
theorem initials_eq_of_filter {s t : Text}
    (h : t.filter (fun c => (initialRank? c).isSome) =
      s.filter fun c => (initialRank? c).isSome) : initials t = initials s := by
  have hfilter : ∀ u : Text,
      initials (u.filter fun c => (initialRank? c).isSome) = initials u := by
    intro u
    rw [initials, List.filterMap_filter, initials]
    refine List.filterMap_congr fun c _ => ?_
    cases initialRank? c <;> rfl
  rw [← hfilter, h, hfilter]

/-- The roughness of a text: its load, and among texts of one load the places of its letters. -/
def roughness (s : Text) : ℤ ×ₗ List ℕ := toLex (load s, initials s)

theorem roughness_lt_of_load_lt {s t : Text} (h : load t < load s) : roughness t < roughness s :=
  Prod.Lex.toLex_lt_toLex.2 (Or.inl h)

theorem roughness_le_of_load_le {s t : Text} (h : load t ≤ load s)
    (hinitials : initials t = initials s) : roughness t ≤ roughness s := by
  rcases lt_or_eq_of_le h with hlt | heq
  · exact (roughness_lt_of_load_lt hlt).le
  · exact Prod.Lex.toLex_le_toLex.2 (Or.inr ⟨heq, hinitials.le⟩)

theorem lowers_of_load {f : Text → Text} (h : ∀ s, f s = s ∨ load (f s) < load s) :
    Lowers roughness f :=
  fun s => (h s).imp_right roughness_lt_of_load_lt

/-- A pass keeps the load that whatever it writes keeps. -/
theorem Rule.load_pass {r : Rule} (h : ∀ {x y}, r.Writes x y → load y = load x) (s : Text) :
    load (r.pass s) = load s := by
  refine pass_induction (r := r) (R := fun s t => load t = load s) rfl ?_ ?_ s
  · intro c s _ ih
    rw [load_cons, load_cons, ih]
  · intro x y rest hw ih
    rw [load_append, load_append, h hw, ih]

/-! ### The table of spellings -/

namespace Replacement

variable {p : Replacement} {s : Text}

/-- Whether an entry exchanges letters with a place for others that begin with a lower one. -/
def lowersInitial (p : Replacement) : Bool :=
  match initials p.new, initials p.old with
  | m :: _, n :: _ => m < n
  | _, _ => false

theorem load_apply (h : load p.new = load p.old) (s : Text) : load (p.apply s) = load s := by
  refine Rule.load_pass ?_ s
  intro x y hw
  obtain ⟨rfl, rfl⟩ := writes_rule hw
  exact h

/-- The letters of a text go down with the first one that is exchanged. -/
theorem initials_apply_lt (h : p.lowersInitial = true) (hs : p.old <:+: s) :
    initials (p.apply s) < initials s := by
  obtain ⟨m, x, n, y, hnew, hold, hlt⟩ : ∃ m x n y, initials p.new = m :: x ∧
      initials p.old = n :: y ∧ m < n := by
    unfold lowersInitial at h
    split at h
    · next m x n y hnew hold => exact ⟨m, x, n, y, hnew, hold, of_decide_eq_true h⟩
    · cases h
  refine Rule.pass_induction (r := p.rule)
    (R := fun s t => p.old <:+: s → initials t < initials s) ?_ ?_ ?_ s hs
  · exact fun hnil => absurd (List.infix_nil.1 hnil) p.old_ne_nil
  · intro c s hnone ih hs
    have htail := ih ((List.infix_cons_iff.1 hs).resolve_left (not_isPrefix_of_fire?_eq_none hnone))
    have hcons : ∀ t, initials (c :: t) = initials [c] ++ initials t := initials_append [c]
    rw [hcons, hcons s]
    exact List.append_left_lt htail
  · intro u v rest hw _ _
    obtain ⟨rfl, rfl⟩ := writes_rule hw
    rw [initials_append, initials_append, hnew, hold]
    exact List.Lex.rel hlt

/-- Entries other than those that put a bar on a letter make every text smoother that they find
    their old text in. -/
theorem roughness_apply_lt (hp : p ∈ literalReplacements) (hbar : p.barsLetter = false)
    (hs : p.old <:+: s) : roughness (p.apply s) < roughness s := by
  have htable : ∀ p ∈ literalReplacements, p.barsLetter = false → load p.new < load p.old ∨
      load p.new = load p.old ∧ p.lowersInitial = true := by
    decide
  rcases htable p hp hbar with hlt | ⟨heq, hinitial⟩
  · exact roughness_lt_of_load_lt ((size_apply load load_append hlt s).2 hs)
  · exact Prod.Lex.toLex_lt_toLex.2 (Or.inr ⟨load_apply heq s, initials_apply_lt hinitial hs⟩)

/-- No entry makes a text rougher. -/
theorem roughness_apply_le (hp : p ∈ literalReplacements) (s : Text) :
    roughness (p.apply s) ≤ roughness s := by
  by_cases hs : p.old <:+: s
  · cases hbar : p.barsLetter with
    | false => exact (roughness_apply_lt hp hbar hs).le
    | true =>
      have htable : ∀ p ∈ letterBars, load p.new = load p.old ∧
          p.new.filter (fun c => (initialRank? c).isSome) =
            p.old.filter fun c => (initialRank? c).isSome := by
        decide
      obtain ⟨hload, hfilter⟩ := htable p (List.mem_filter.2 ⟨hp, hbar⟩)
      exact roughness_le_of_load_le (load_apply hload s).le
        (initials_eq_of_filter (filter_apply hfilter s))
  · rw [show p.apply s = s from Rule.pass_eq_self hs]

theorem roughness_applyAll_le {table : List Replacement} (htable : table ⊆ literalReplacements)
    (s : Text) : roughness (applyAll table s) ≤ roughness s := by
  refine applyAll_induction (P := fun t => roughness t ≤ roughness s) ?_ le_rfl
  intro p hp t ht
  exact (roughness_apply_le (htable hp) t).trans ht

/-- If entries make a text no smoother, none but those that put a bar on a letter have found their
    old texts. -/
theorem not_isInfix_of_roughness_le {table : List Replacement}
    (htable : table ⊆ literalReplacements)
    (hpair : table.Pairwise fun p q =>
      p.barsLetter = true → q.barsLetter = false → Spares q.old p.new p.old)
    (h : roughness s ≤ roughness (applyAll table s)) :
    ∀ p ∈ table, p.barsLetter = false → ¬ p.old <:+: s := by
  induction table generalizing s with
  | nil => nofun
  | cons p table ih =>
    obtain ⟨hp, hpair⟩ := List.pairwise_cons.1 hpair
    obtain ⟨hmem, htable⟩ := List.cons_subset.1 htable
    have hfirst := roughness_apply_le hmem s
    have hrest := roughness_applyAll_le htable (p.apply s)
    rw [applyAll_cons] at h
    have hnone := ih htable hpair (hfirst.trans h)
    rw [List.forall_mem_cons]
    cases hbar : p.barsLetter with
    | true =>
      refine ⟨nofun, fun q hq hdrop hinfix => ?_⟩
      exact hnone q hq hdrop (isInfix_apply (hp q hq hbar hdrop) hinfix)
    | false =>
      have hidle : ¬ p.old <:+: s := fun hinfix =>
        (h.trans hrest).not_gt (roughness_apply_lt hmem hbar hinfix)
      rw [show p.apply s = s from Rule.pass_eq_self hidle] at hnone
      exact ⟨fun _ => hidle, hnone⟩

end Replacement

theorem roughness_unifySpellings_le (s : Text) : roughness (unifySpellings s) ≤ roughness s :=
  Replacement.roughness_applyAll_le (List.Subset.refl _) s

/-- A text that the table makes no smoother has none of its old texts, but for letters that are
    given a bar. -/
theorem not_isInfix_of_roughness_unifySpellings {s : Text}
    (h : roughness s ≤ roughness (unifySpellings s)) :
    ∀ p ∈ literalReplacements, p.barsLetter = false → ¬ p.old <:+: s :=
  Replacement.not_isInfix_of_roughness_le (List.Subset.refl _) (by decide +kernel) h

/-- Without them the table gives letters a bar, and does nothing else. -/
theorem unifySpellings_eq_barLetters {s : Text}
    (h : ∀ p ∈ literalReplacements, p.barsLetter = false → ¬ p.old <:+: s) :
    unifySpellings s = barLetters s := by
  have hpair : literalReplacements.Pairwise fun p q =>
      p.barsLetter = true → q.barsLetter = false → Spares q.old p.old p.new := by
    decide +kernel
  rw [← applyAll_letterBars, letterBars, Replacement.applyAll_filter_of_not_isInfix hpair h,
    unifySpellings]

/-! ### The passes that write braces -/

namespace Fraction

theorem Argument.load_braced_content_le (a : Argument) : load (braced a.content) ≤ load a.text := by
  rcases a.text_eq with h | h
  · rw [h, load_braced]
    omega
  · rw [h]

/-- Braces are a gain, so an argument that gains nothing from them has them. -/
theorem Argument.text_eq_braced_of_load_le {a : Argument}
    (h : load a.text ≤ load (braced a.content)) : a.text = braced a.content := by
  refine a.text_eq.resolve_left fun hplain => ?_
  rw [hplain, load_braced] at h
  omega

theorem eq_or_load_lt_of_writes_shorthandRule {x y : Text} (h : shorthandRule.Writes x y) :
    y = x ∨ load y < load x := by
  obtain ⟨a, b, -, -, rfl, rfl⟩ := writes_shorthandRule h
  have ha := a.load_braced_content_le
  have hb := b.load_braced_content_le
  simp only [load_append]
  by_cases hgain : load (braced a.content) < load a.text ∨ load (braced b.content) < load b.text
  · exact Or.inr (by omega)
  · rw [not_or, Int.not_lt, Int.not_lt] at hgain
    rw [Argument.text_eq_braced_of_load_le hgain.1, Argument.text_eq_braced_of_load_le hgain.2]
    exact Or.inl rfl

end Fraction

theorem lowers_braceShorthand : Lowers roughness Fraction.braceShorthand :=
  lowers_of_load
    (Rule.pass_eq_self_or_size_lt load load_append Fraction.eq_or_load_lt_of_writes_shorthandRule)

/-- An argument has no braces, so it is a gain to give it some. -/
theorem load_lt_of_writes_bareArgumentRule {x y : Text} (h : Vector.bareArgumentRule.Writes x y) :
    load y < load x := by
  obtain ⟨blanks, argument, hblanks, -, rfl, rfl⟩ := Vector.writes_bareArgumentRule h
  have hfree := load_nonneg fun hmem => absurd (hblanks _ hmem) (by decide)
  simp only [load_append, load_braced]
  omega

theorem lowers_braceBareArgument : Lowers roughness Vector.braceBareArgument :=
  lowers_of_load (Rule.pass_eq_self_or_size_lt load load_append
    fun hw => Or.inr (load_lt_of_writes_bareArgumentRule hw))

theorem load_promoteOnce? {s t : Text} (h : Fraction.promoteOnce? s = some t) :
    load t < load s := by
  obtain ⟨a, b, c, rfl, rfl⟩ := Fraction.promoteOnce?_cases h
  simp only [load_append, load_braced]
  omega

theorem lowers_promote : Lowers roughness fun s => (Fraction.promote s).1 := by
  refine lowers_of_load fun s => ?_
  refine repeatAtMost_induction (P := fun t => t = s ∨ load t < load s) ?_ _ (Or.inl rfl)
  rintro a b hab (rfl | hlt)
  · exact Or.inr (load_promoteOnce? hab)
  · exact Or.inr ((load_promoteOnce? hab).trans hlt)

/-! ### The passes over vectors -/

theorem load_remains (s : Text) : load (Removal.unwrap.remains s) ≤ load s + 1 := by
  have hopening : toll '{' = -1 := rfl
  have hclosing : toll '}' = 0 := rfl
  rcases Removal.unwrap.remains_cases s with heq | ⟨t, rfl, heq⟩
  · rw [heq]
    omega
  · have hgroup := congrArg load (groupBody_append 0 t)
    rw [load_append] at hgroup
    rw [heq, Removal.kept, load_append, load_cons, hopening, ← hgroup]
    rcases after_groupBody 0 t with hnil | ⟨u, hu⟩
    · rw [hnil, List.drop_nil]
      omega
    · rw [hu, List.drop_one, List.tail_cons, load_cons, hclosing]
      omega

/-- A bar is worth its braces. -/
theorem load_flattenBars (s : Text) : load (Vector.flattenBars s) ≤ load s := by
  have hbar : load (command "bar") = 1 := rfl
  refine Vector.flattenBars_induction (P := fun t => load t ≤ load s) ?_ (Int.le_refl _)
  intro a t _ hat
  refine Int.le_trans ?_ hat
  have hremove : load (removeCommand .anywhere .unwrap (command "bar") (groupBody 0 t).before) ≤
      load (groupBody 0 t).before := by
    refine removeCommand_induction (P := fun u => load u ≤ load (groupBody 0 t).before) ?_
      (Int.le_refl _)
    intro k hk
    have hremains := load_remains k.after
    rw [load_append, load_append, hbar] at hk
    rw [load_append]
    omega
  conv => rhs; rw [← groupBody_append 0 t]
  simp only [load_append, load_cons]
  omega

theorem roughness_flattenBars_le (s : Text) : roughness (Vector.flattenBars s) ≤ roughness s :=
  roughness_le_of_load_le (load_flattenBars s)
    (initials_eq_of_filter (Vector.filter_flattenBars rfl rfl (by decide) s))

/-- Moving a subscript writes what it has read in another order. -/
theorem load_moveSubscriptOut (s : Text) : load (Vector.moveSubscriptOut s) = load s := by
  refine Rule.load_pass ?_ s
  intro x y hw
  obtain ⟨base, sub, -, -, rfl, rfl⟩ := Vector.writes_subscriptRule hw
  simp only [load_append, load_cons, load_braced]
  omega

theorem roughness_moveSubscriptOut_le (s : Text) :
    roughness (Vector.moveSubscriptOut s) ≤ roughness s :=
  roughness_le_of_load_le (load_moveSubscriptOut s).le
    (initials_eq_of_filter (Vector.filter_moveSubscriptOut rfl rfl s))

end TidyTex
