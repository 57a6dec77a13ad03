import TidyTex.Proofs.Brace.Escape
import TidyTex.Proofs.Brace.Scope

/-! Which braces are literal.

    The scans for braces read a backslash together with the character behind it, whatever that is.
    So a brace is escaped when it stands behind a backslash that is not escaped itself, and a text
    with parentheses in place of just these braces looks the same to the scans:

        \{a\}     two escaped braces                                ──▶  (a)
        \\{a}     an escaped backslash, and braces around a group   ──▶  \\{a}

    The parentheses that stand for literal braces are put in by neighbours alone, and a brace behind
    an escaped backslash has a backslash for a neighbour too. There, and nowhere else, the two come
    apart (`literalBracesToParens_eq_iff`): the second text becomes `\(a}`, which is not balanced
    any more. -/

namespace TidyTex.Text

/-- Whether the character behind `c` is escaped, when `escaped` tells whether `c` is. -/
def escapeStep (escaped : Bool) (c : Char) : Bool := c == '\\' && !escaped

/-- Whether the character behind a text is escaped, for a scan that starts with the text. -/
def escapesNext (s : Text) : Bool := s.foldl escapeStep false

theorem escapesNext_pair (c : Char) (s : Text) : escapesNext ('\\' :: c :: s) = escapesNext s := by
  have hstep : escapeStep true c = false := Bool.and_false _
  rw [escapesNext, List.foldl_cons, List.foldl_cons]
  exact congrArg (s.foldl escapeStep) hstep

theorem escapesNext_cons {c : Char} (h : c ≠ '\\') (s : Text) :
    escapesNext (c :: s) = escapesNext s := by
  have hstep : escapeStep false c = false := by simp [escapeStep, h]
  rw [escapesNext, List.foldl_cons, hstep, escapesNext]

/-! ### Parentheses for escaped braces -/

/-- The parenthesis for an escaped brace, and any other character with its backslash. -/
def escapedToParen : Char → Text
  | '{' => ['(']
  | '}' => [')']
  | c => ['\\', c]

/-- A text with parentheses in place of the braces that are escaped in it. -/
def escapedToParens : Text → Text
  | '\\' :: c :: s => escapedToParen c ++ escapedToParens s
  | c :: s => c :: escapedToParens s
  | [] => []

theorem escapedToParen_of_not_brace {c : Char} (h : isBrace c = false) :
    escapedToParen c = ['\\', c] := by
  obtain ⟨ho, hc⟩ := isBrace_eq_false_iff.1 h
  simp [escapedToParen]

theorem escapedToParens_cons {c : Char} (h : c ≠ '\\') (s : Text) :
    escapedToParens (c :: s) = c :: escapedToParens s := by
  rw [escapedToParens]
  rintro d t rfl
  exact absurd rfl h

/-! ### The scans see the same -/

/-- A cut with parentheses in place of the escaped braces of both parts. -/
def escapedToParensCut (k : Cut) : Cut := ⟨escapedToParens k.before, escapedToParens k.after⟩

theorem escapedToParensCut_prepend {c : Char} (h : c ≠ '\\') (k : Cut) :
    escapedToParensCut (k.prepend [c]) = (escapedToParensCut k).prepend [c] := by
  rw [escapedToParensCut, Cut.before_prepend, List.singleton_append, escapedToParens_cons h]
  rfl

theorem firstBrace?_cons {c : Char} (hb : c ≠ '\\') (ho : c ≠ '{') (s : Text) :
    firstBrace? (c :: s) = (firstBrace? s).map (·.prepend [c]) := by
  rw [firstBrace?]
  · rintro d t rfl
    exact absurd rfl hb
  · rintro rfl
    exact absurd rfl ho

theorem firstBrace?_escapedToParen (c : Char) (s : Text) :
    firstBrace? (escapedToParen c ++ s) = (firstBrace? s).map (·.prepend (escapedToParen c)) := by
  unfold escapedToParen
  split <;> rfl

/-- The first opening brace that is not escaped stays the first. -/
theorem firstBrace?_escapedToParens (s : Text) :
    firstBrace? (escapedToParens s) = (firstBrace? s).map escapedToParensCut := by
  fun_induction firstBrace? s with
  | case1 c s ih =>
    rw [escapedToParens, firstBrace?_escapedToParen, ih, Option.map_map, Option.map_map]
    rfl
  | case2 s => rfl
  | case3 c s hpair ho ih =>
    rcases lone_cases hpair with hb | ⟨rfl, rfl⟩
    · rw [escapedToParens_cons hb, firstBrace?_cons hb ho, ih, Option.map_map, Option.map_map]
      exact Option.map_congr fun k _ => (escapedToParensCut_prepend hb k).symm
    · rfl
  | case4 => rfl

/-- What is written for an escaped character is content of a scope. -/
theorem scopeContent_escapedToParen (c : Char) : ScopeContent (escapedToParen c) := by
  unfold escapedToParen
  split
  · exact .char (by decide) .nil
  · exact .char (by decide) .nil
  · exact .escaped c .nil

/-- The brace that ends a scope goes on to end it. -/
theorem scopeBody?_escapedToParens (depth : Nat) (s : Text) :
    scopeBody? depth (escapedToParens s) = (scopeBody? depth s).map escapedToParensCut := by
  fun_induction scopeBody? depth s with
  | case1 depth c s ih =>
    rw [escapedToParens, scopeBody?_append (scopeContent_escapedToParen c), ih, Option.map_map,
      Option.map_map]
    rfl
  | case2 depth s ih | case4 depth s ih =>
    rw [escapedToParens_cons (by decide), scopeBody?, ih, Option.map_map, Option.map_map]
    exact Option.map_congr fun k _ => (escapedToParensCut_prepend (by decide) k).symm
  | case3 s => rw [escapedToParens_cons (by decide), scopeBody?]; rfl
  | case5 depth c s hpair ho hclosing hclosing' ih =>
    rcases lone_cases hpair with hb | ⟨rfl, rfl⟩
    · have hcl := ne_closing hclosing hclosing'
      rw [escapedToParens_cons hb, scopeBody?_cons ⟨hb, ho, hcl⟩, ih, Option.map_map,
        Option.map_map]
      exact Option.map_congr fun k _ => (escapedToParensCut_prepend hb k).symm
    · rfl
  | case6 => rfl

/-! ### Parentheses by neighbours -/

/-- Whether a text starts with a brace. -/
def startsWithBrace (s : Text) : Bool := s.head?.any isBrace

theorem startsWithBrace_eq_true_iff {s : Text} :
    startsWithBrace s = true ↔ ∃ c t, s = c :: t ∧ isBrace c = true := by
  cases s with
  | nil => simp [startsWithBrace]
  | cons c s => simp [startsWithBrace]

/-- The first entry of `literalBraces`. -/
def openingToParen : Replacement := ⟨['\\', '{'], ['('], List.cons_ne_nil _ _⟩

/-- The second entry of `literalBraces`. -/
def closingToParen : Replacement := ⟨['\\', '}'], [')'], List.cons_ne_nil _ _⟩

/-- Writing parentheses for opening braces brings no closing brace to the start of a text. -/
theorem isPrefix_of_isPrefix_apply {s : Text} (h : ['}'] <+: openingToParen.apply s) :
    ['}'] <+: s := by
  by_cases hpair : openingToParen.old <+: s
  · obtain ⟨t, rfl⟩ := hpair
    rw [Replacement.apply_append] at h
    exact absurd (List.cons_prefix_cons.1 h).1 (by decide)
  · cases s with
    | nil =>
      rw [Replacement.apply_nil] at h
      exact h
    | cons c s =>
      rw [Replacement.apply_cons_of_not_isPrefix hpair, List.cons_prefix_cons] at h
      exact List.cons_prefix_cons.2 ⟨h.1, List.nil_prefix⟩

theorem literalBracesToParens_eq (s : Text) :
    literalBracesToParens s = closingToParen.apply (openingToParen.apply s) := rfl

theorem literalBracesToParens_nil : literalBracesToParens [] = [] := by
  rw [literalBracesToParens_eq, Replacement.apply_nil, Replacement.apply_nil]

/-- A brace behind a backslash is replaced, whether the backslash is escaped or not. -/
theorem literalBracesToParens_pair {c : Char} (h : isBrace c = true) (s : Text) :
    literalBracesToParens ('\\' :: c :: s) = escapedToParen c ++ literalBracesToParens s := by
  rw [literalBracesToParens_eq, literalBracesToParens_eq]
  rcases isBrace_eq_true_iff.1 h with rfl | rfl
  · have hopening : openingToParen.apply ('\\' :: '{' :: s) = '(' :: openingToParen.apply s :=
      Replacement.apply_append _ s
    rw [hopening, Replacement.apply_cons_of_not_isPrefix]
    · rfl
    · exact fun hp => absurd (List.cons_prefix_cons.1 hp).1 (by decide)
  · have hopening : openingToParen.apply ('\\' :: '}' :: s) =
        '\\' :: '}' :: openingToParen.apply s := by
      rw [Replacement.apply_cons_of_not_isPrefix, Replacement.apply_cons_of_not_isPrefix]
      · exact fun hp => absurd (List.cons_prefix_cons.1 hp).1 (by decide)
      · intro hp
        exact absurd (List.cons_prefix_cons.1 (List.cons_prefix_cons.1 hp).2).1 (by decide)
    rw [hopening]
    exact Replacement.apply_append closingToParen _

/-- A backslash and a brace at the start of a text. -/
theorem startsWithBrace_of_isPrefix {b c : Char} (hb : isBrace b = true) {s : Text}
    (h : ['\\', b] <+: c :: s) : c = '\\' ∧ startsWithBrace s = true := by
  obtain ⟨rfl, t, rfl⟩ := List.cons_prefix_cons.1 h
  exact ⟨rfl, hb⟩

/-- All else is kept. -/
theorem literalBracesToParens_cons {c : Char} {s : Text}
    (h : c = '\\' → startsWithBrace s = false) :
    literalBracesToParens (c :: s) = c :: literalBracesToParens s := by
  have hpair : ∀ {b}, isBrace b = true → ¬ ['\\', b] <+: c :: s := by
    intro b hb hp
    obtain ⟨hc, hs⟩ := startsWithBrace_of_isPrefix hb hp
    rw [h hc] at hs
    cases hs
  have hclosing : ¬ closingToParen.old <+: c :: openingToParen.apply s := by
    intro hp
    obtain ⟨hc, hs⟩ := List.cons_prefix_cons.1 hp
    exact hpair rfl (List.cons_prefix_cons.2 ⟨hc, isPrefix_of_isPrefix_apply hs⟩)
  rw [literalBracesToParens_eq, literalBracesToParens_eq,
    Replacement.apply_cons_of_not_isPrefix (hpair rfl),
    Replacement.apply_cons_of_not_isPrefix hclosing]

/-- Whether every brace that has a backslash for a neighbour is escaped by it. -/
def NeighboursTell (s : Text) : Prop :=
  ∀ a c b, s = a ++ '\\' :: c :: b → isBrace c = true → escapesNext a = false

theorem neighboursTell_pair {c : Char} {s : Text} :
    NeighboursTell ('\\' :: c :: s) ↔
      (c = '\\' → startsWithBrace s = false) ∧ NeighboursTell s := by
  constructor
  · intro h
    refine ⟨?_, ?_⟩
    · rintro rfl
      rw [Bool.eq_false_iff]
      intro hs
      obtain ⟨d, t, rfl, hd⟩ := startsWithBrace_eq_true_iff.1 hs
      exact absurd (h ['\\'] d t rfl hd) (by decide)
    · rintro a d b rfl hd
      rw [← escapesNext_pair c]
      exact h ('\\' :: c :: a) d b rfl hd
  · rintro ⟨hstart, h⟩ a d b hs hd
    match a with
    | [] => rfl
    | [x] =>
      obtain ⟨-, rfl, rfl⟩ : '\\' = x ∧ c = '\\' ∧ s = d :: b := by simpa using hs
      rw [startsWithBrace, List.head?_cons, Option.any_some, hd] at hstart
      cases hstart rfl
    | x :: y :: a =>
      obtain ⟨rfl, rfl, rfl⟩ : '\\' = x ∧ c = y ∧ s = a ++ '\\' :: d :: b := by simpa using hs
      rw [escapesNext_pair]
      exact h a d b rfl hd

theorem neighboursTell_cons {c : Char} (hc : c ≠ '\\') {s : Text} :
    NeighboursTell (c :: s) ↔ NeighboursTell s := by
  constructor
  · rintro h a d b rfl hd
    rw [← escapesNext_cons hc]
    exact h (c :: a) d b rfl hd
  · intro h a d b hs hd
    match a with
    | [] => exact absurd (List.cons.inj hs).1 hc
    | x :: a =>
      obtain ⟨rfl, rfl⟩ := List.cons.inj hs
      rw [escapesNext_cons hc]
      exact h a d b rfl hd

/-- There is no room for a backslash and a brace in one character. -/
theorem neighboursTell_of_length_le {s : Text} (h : s.length ≤ 1) : NeighboursTell s := by
  intro a c b hs _
  have hlength := congrArg List.length hs
  rw [List.length_append, List.length_cons, List.length_cons] at hlength
  omega

/-- The two ways to put in parentheses agree until a brace stands behind an escaped backslash. -/
theorem literalBracesToParens_eq_escapedToParens_iff (s : Text) :
    literalBracesToParens s = escapedToParens s ↔ NeighboursTell s := by
  fun_induction escapedToParens s with
  | case1 c s ih =>
    rw [neighboursTell_pair]
    by_cases hc : isBrace c = true
    · have hne : c ≠ '\\' := by rintro rfl; cases hc
      rw [literalBracesToParens_pair hc, List.append_cancel_left_eq, ih]
      exact ⟨fun h => ⟨fun he => absurd he hne, h⟩, And.right⟩
    · rw [Bool.not_eq_true] at hc
      have hstart : startsWithBrace (c :: s) = false := hc
      rw [escapedToParen_of_not_brace hc, literalBracesToParens_cons fun _ => hstart]
      by_cases hs : c = '\\' → startsWithBrace s = false
      · rw [literalBracesToParens_cons hs, and_iff_right hs, ← ih]
        simp
      · -- Here the texts part: the brace goes together with a backslash that does not escape it.
        refine iff_of_false ?_ fun h => hs h.1
        obtain ⟨rfl, hbrace⟩ := Classical.not_imp.1 hs
        rw [Bool.not_eq_false, startsWithBrace_eq_true_iff] at hbrace
        obtain ⟨d, t, rfl, hd⟩ := hbrace
        rw [literalBracesToParens_pair hd]
        rcases isBrace_eq_true_iff.1 hd with rfl | rfl <;> simp [escapedToParen]
  | case2 c s hpair ih =>
    rcases lone_cases hpair with hb | ⟨rfl, rfl⟩
    · rw [neighboursTell_cons hb, literalBracesToParens_cons fun h => absurd h hb,
        List.cons_inj_right, ih]
    · rw [literalBracesToParens_cons fun _ => rfl, literalBracesToParens_nil]
      exact iff_of_true rfl (neighboursTell_of_length_le (Nat.le_refl 1))
  | case3 =>
    exact iff_of_true literalBracesToParens_nil (neighboursTell_of_length_le (Nat.zero_le 1))

/-- Parentheses take the place of just the escaped braces exactly when no brace stands behind an
    escaped backslash. The escaped braces are those that the scans read over: with parentheses for
    them, the first brace and the end of every scope stay where they are. -/
theorem literalBracesToParens_eq_iff (s : Text) :
    (literalBracesToParens s = escapedToParens s ↔ NeighboursTell s) ∧
      firstBrace? (escapedToParens s) = (firstBrace? s).map escapedToParensCut ∧
      ∀ depth, scopeBody? depth (escapedToParens s) =
        (scopeBody? depth s).map escapedToParensCut :=
  ⟨literalBracesToParens_eq_escapedToParens_iff s, firstBrace?_escapedToParens s,
    fun depth => scopeBody?_escapedToParens depth s⟩

/-- The braces of `\\{a}` are not escaped, and the first of them is replaced all the same. -/
theorem literalBracesToParens_ne_escapedToParens :
    ¬ ∀ s : Text, literalBracesToParens s = escapedToParens s := by
  intro h
  have hpart := h "\\\\{a}".toList
  revert hpart
  decide +kernel

end TidyTex.Text
