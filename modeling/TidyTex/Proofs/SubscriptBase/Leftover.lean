import TidyTex.Proofs.SubscriptBase.Reading

/-! Braced bases that a pass leaves behind.

    A pass drops the braces around the base of a subscript wherever it comes to one, and goes on
    behind the subscript. A second pass may find a base that the first one has not come to:

        {a}_{b}_{c}       ──▶    a_{b}_{c}       ──▶    a_b_{c}
        {a}_{{b}_{c}}     ──▶    a_{{b}_{c}}     ──▶    a_{b_{c}}
        {\{\}}_{0}        ──▶    {\\}_{0}        ──▶    \\_{0}

    In the first two rows a base begins in the subscript that has been read and is read over
    (`LeavesBase.hidden`), unless the braces of its own subscript are dropped as those of a base. In
    the third one a backslash that escaped the brace comes to escape another backslash
    (`LeavesBase.escaped`). There is no third way, and a second pass changes nothing exactly when
    neither of the two occurs (`hasBracedBase_strip_iff`). -/

namespace TidyTex.Text

/-- The two ways in which a pass leaves a braced base behind. -/
inductive LeavesBase (s : Text) : Prop
  /-- The pass reads over the base, and keeps the braces of its subscript. -/
  | hidden {base sub rest : Text} (hbase : Token base) (hsub : Subscript sub)
      (hs : withSubscript (braced base) sub ++ rest <:+ s)
      (hread : ¬ subscriptBaseRule.AppliesAt s (withSubscript (braced base) sub ++ rest))
      (hkept : ¬ subscriptBaseRule.AppliesAt s (braced sub ++ rest))
  /-- The pass drops the braces around an escaped closing brace behind a brace and a backslash. -/
  | escaped {sub rest : Text} (hsub : Subscript sub)
      (hs : '{' :: '\\' :: (withSubscript (braced ['\\', '}']) sub ++ rest) <:+ s)
      (hread : subscriptBaseRule.AppliesAt s (withSubscript (braced ['\\', '}']) sub ++ rest))

variable {base sub s t q : Text}

/-! ### Braces before and after a pass -/

/-- Nothing that is written begins with a brace. -/
theorem Token.not_isPrefix_cons (h : Token base) {d : Char} (hd : d = '{' ∨ d = '}') (t : Text) :
    ¬ withSubscript base sub <+: d :: t := by
  obtain ⟨c, base, rfl, hopening, hclosing⟩ := h.exists_cons
  intro hp
  have hc : c = d := (List.cons_prefix_cons.1 hp).1
  rcases hd with rfl | rfl
  · exact hopening hc
  · exact hclosing hc

/-- A brace at the head of a pass was there before, and the rule does not apply at it. -/
theorem exists_of_strip_eq_cons {d : Char} (hd : d = '{' ∨ d = '}')
    (h : stripSubscriptBases s = d :: t) :
    ∃ s', s = d :: s' ∧ subscriptBaseRule.fire? s = none ∧ stripSubscriptBases s' = t := by
  cases s with
  | nil => rw [stripSubscriptBases, Rule.pass_nil] at h; cases h
  | cons c s =>
    cases hfire : subscriptBaseRule.fire? (c :: s) with
    | none =>
      rw [stripSubscriptBases, Rule.pass_cons_of_fire? hfire] at h
      obtain ⟨rfl, rfl⟩ := List.cons.inj h
      exact ⟨s, rfl, rfl, rfl⟩
    | some out =>
      obtain ⟨y, rest⟩ := out
      obtain ⟨base, sub, hbase, -, -, rfl⟩ := fire?_subscriptBaseRule_eq_some_iff.1 hfire
      rw [stripSubscriptBases, Rule.pass_of_fire? hfire] at h
      exact absurd ⟨_, h⟩ (hbase.not_isPrefix_cons hd t)

/-- A mark of a subscript at the head of a pass was there before. -/
theorem exists_of_strip_eq_mark (h : stripSubscriptBases s = '_' :: '{' :: t) :
    ∃ s', s = '_' :: '{' :: s' ∧ subscriptBaseRule.fire? ('{' :: s') = none ∧
      stripSubscriptBases s' = t := by
  have hmark : ∀ {base sub : Text}, Token base → ¬ withSubscript base sub <+: '_' :: '{' :: t := by
    intro base sub hbase hp
    cases hbase with
    | command _ _ | escaped _ => exact absurd (List.cons_prefix_cons.1 hp).1 (by decide)
    | single _ _ _ =>
      have htail := (List.cons_prefix_cons.1 hp).2
      exact absurd (List.cons_prefix_cons.1 htail).1 (by decide)
  rcases Rule.pass_eq_append_cases (x := ['_']) h with
    ⟨u, rfl, hu⟩ | ⟨a, b, u, y, rest, hab, hb, -, hfire, hy⟩
  · obtain ⟨s', rfl, hnone, hs'⟩ := exists_of_strip_eq_cons (Or.inl rfl) hu
    exact ⟨s', rfl, hnone, hs'⟩
  · obtain ⟨base, sub, hbase, -, -, rfl⟩ := fire?_subscriptBaseRule_eq_some_iff.1 hfire
    rcases List.singleton_eq_append_iff.1 hab with ⟨-, rfl⟩ | ⟨-, rfl⟩
    · exact absurd ⟨_, hy⟩ (hmark hbase)
    · exact absurd rfl hb

theorem strip_cons_of_ne {c : Char} (hc : c ≠ '{') :
    stripSubscriptBases (c :: s) = c :: stripSubscriptBases s :=
  Rule.pass_cons_of_fire? (fire?_cons_of_ne hc)

/-- An opened subscript stays one, and none comes up. -/
theorem opened_strip_iff : Opened (stripSubscriptBases q) ↔ Opened q := by
  have hmem : '}' ∈ stripSubscriptBases q ↔ '}' ∈ q := by
    refine Rule.pass_induction (r := subscriptBaseRule) (R := fun s t => '}' ∈ t ↔ '}' ∈ s)
      Iff.rfl ?_ ?_ q
    · intro c s _ ih
      rw [List.mem_cons, List.mem_cons, ih]
    · intro x y rest hw _
      obtain ⟨base, sub, -, -, rfl, rfl⟩ := writes_subscriptBaseRule hw
      simp [withSubscript, braced]
  have hhead : (stripSubscriptBases q).head? = some '}' ↔ q.head? = some '}' := by
    rw [List.head?_eq_some_iff, List.head?_eq_some_iff]
    constructor
    · rintro ⟨t, ht⟩
      obtain ⟨s', rfl, -, -⟩ := exists_of_strip_eq_cons (Or.inr rfl) ht
      exact ⟨s', rfl⟩
    · rintro ⟨s', rfl⟩
      exact ⟨_, strip_cons_of_ne (by decide)⟩
  rw [opened_iff, opened_iff, Ne, hhead, hmem]

/-- A mark of a subscript stands in front of an opened subscript of a pass where it did before and
    the pass does not come to apply the rule at the brace. -/
theorem strip_eq_mark_iff :
    (∃ q, Opened q ∧ stripSubscriptBases s = '_' :: '{' :: q) ↔
      ∃ q, Opened q ∧ s = '_' :: '{' :: q ∧ ¬ subscriptBaseRule.AppliesAt s ('{' :: q) := by
  have hmark : ∀ q, ¬ subscriptBaseRule.AppliesAt ('_' :: '{' :: q) ('{' :: q) ↔
      subscriptBaseRule.fire? ('{' :: q) = none := by
    intro q
    rw [Rule.appliesAt_cons_iff (fire?_cons_of_ne (by decide)), Rule.appliesAt_self_iff,
      Classical.not_not]
  constructor
  · rintro ⟨q, hq, h⟩
    obtain ⟨s', rfl, hnone, rfl⟩ := exists_of_strip_eq_mark h
    exact ⟨s', opened_strip_iff.1 hq, rfl, (hmark s').2 hnone⟩
  · rintro ⟨q, hq, rfl, hkept⟩
    refine ⟨stripSubscriptBases q, opened_strip_iff.2 hq, ?_⟩
    rw [strip_cons_of_ne (by decide), stripSubscriptBases,
      Rule.pass_cons_of_fire? ((hmark q).1 hkept)]
    rfl

/-- The same behind a closing brace, if there is one. -/
theorem strip_eq_append_mark_iff {v : Text} (hv : v = [] ∨ v = ['}']) :
    (∃ q, Opened q ∧ stripSubscriptBases s = v ++ '_' :: '{' :: q) ↔
      ∃ q, Opened q ∧ s = v ++ '_' :: '{' :: q ∧
        ¬ subscriptBaseRule.AppliesAt s ('{' :: q) := by
  rcases hv with rfl | rfl
  · exact strip_eq_mark_iff
  have hclosing : ∀ {s t}, subscriptBaseRule.AppliesAt ('}' :: s) t ↔
      subscriptBaseRule.AppliesAt s t := Rule.appliesAt_cons_iff (fire?_cons_of_ne (by decide))
  constructor
  · rintro ⟨q, hq, h⟩
    obtain ⟨s, rfl, -, hs⟩ := exists_of_strip_eq_cons (Or.inr rfl) h
    obtain ⟨q', hq', rfl, hkept⟩ := strip_eq_mark_iff.1 ⟨q, hq, hs⟩
    exact ⟨q', hq', rfl, mt hclosing.1 hkept⟩
  · rintro ⟨q, hq, rfl, hkept⟩
    obtain ⟨q', hq', hs⟩ := strip_eq_mark_iff.2 ⟨q, hq, rfl, mt hclosing.2 hkept⟩
    refine ⟨q', hq', ?_⟩
    rw [List.singleton_append, strip_cons_of_ne (by decide), hs]
    rfl

/-- In front of a pass, the rule comes to apply at a character where it did not apply before only if
    that is the brace before a backslash and the base that is an escaped closing brace. -/
theorem fire?_cons_strip_iff {c : Char} (hnone : subscriptBaseRule.fire? (c :: s) = none) :
    subscriptBaseRule.fire? (c :: stripSubscriptBases s) ≠ none ↔
      c = '{' ∧ ∃ sub rest, Subscript sub ∧
        s = '\\' :: (withSubscript (braced ['\\', '}']) sub ++ rest) := by
  constructor
  · intro hfire
    obtain ⟨base, q, hbase, hq, heq⟩ := fire?_ne_none_iff.1 hfire
    obtain ⟨rfl, htail⟩ := List.cons.inj heq
    rcases Rule.pass_eq_append_cases htail with
      ⟨s, rfl, hs⟩ | ⟨a, b, u, y, rest, rfl, hb, rfl, hu, hy⟩
    · obtain ⟨q', hq', rfl, -⟩ := (strip_eq_append_mark_iff (v := ['}']) (Or.inr rfl)).1 ⟨q, hq, hs⟩
      exact absurd hnone (fire?_ne_none_iff.2 ⟨base, q', hbase, hq', rfl⟩)
    · obtain ⟨base', sub, hbase', hsub, rfl, rfl⟩ := fire?_subscriptBaseRule_eq_some_iff.1 hu
      obtain ⟨rfl, rfl, rfl⟩ := hbase.eq_of_isPrefix hb hbase' ⟨_, hy⟩
      exact ⟨rfl, sub, rest, hsub, rfl⟩
  · rintro ⟨rfl, sub, rest, hsub, rfl⟩
    have hclosing : Token ['\\', '}'] := .escaped (by decide)
    have hescape : Token ['\\', '\\'] := .escaped (by decide)
    rw [strip_cons_of_ne (by decide), stripSubscriptBases,
      Rule.pass_of_fire? (fire?_read hclosing hsub rest), withSubscript_append]
    exact fire?_ne_none_iff.2 ⟨_, _, hescape, ⟨sub, _, hsub, rfl⟩, rfl⟩

/-! ### What a pass leaves -/

/-- A character that is kept leaves a base behind if the rule comes to apply at it. -/
theorem leavesBase_cons_iff {c : Char} (hnone : subscriptBaseRule.fire? (c :: s) = none) :
    LeavesBase (c :: s) ↔
      subscriptBaseRule.fire? (c :: stripSubscriptBases s) ≠ none ∨ LeavesBase s := by
  have hat : ∀ {t}, subscriptBaseRule.AppliesAt (c :: s) t ↔ subscriptBaseRule.AppliesAt s t :=
    Rule.appliesAt_cons_iff hnone
  rw [fire?_cons_strip_iff hnone]
  constructor
  · rintro (@⟨base, sub, rest, hbase, hsub, hs, hread, hkept⟩ | @⟨sub, rest, hsub, hs, hread⟩)
    · rcases List.suffix_cons_iff.1 hs with heq | hs
      · have hfire := fire?_read hbase hsub rest
        rw [heq, hnone] at hfire
        cases hfire
      · exact Or.inr (.hidden hbase hsub hs (mt hat.2 hread) (mt hat.2 hkept))
    · rcases List.suffix_cons_iff.1 hs with heq | hs
      · obtain ⟨rfl, rfl⟩ := List.cons.inj heq
        exact Or.inl ⟨rfl, sub, rest, hsub, rfl⟩
      · exact Or.inr (.escaped hsub hs (hat.1 hread))
  · rintro (⟨rfl, sub, rest, hsub, rfl⟩ | @⟨base, sub, rest, hbase, hsub, hs, hread, hkept⟩ |
      @⟨sub, rest, hsub, hs, hread⟩)
    · refine .escaped hsub List.suffix_rfl (hat.2 (.keep (fire?_cons_of_ne (by decide)) ?_))
      exact .here (fire?_read (.escaped (by decide)) hsub rest)
    · exact .hidden hbase hsub (hs.trans (List.suffix_cons c s)) (mt hat.1 hread) (mt hat.1 hkept)
    · exact .escaped hsub (hs.trans (List.suffix_cons c s)) (hat.2 hread)

/-- The rule applies across the start of a pass where it did before, unless the pass comes to apply
    it at the brace of the subscript. -/
theorem fire?_append_strip_iff {z rest : Text} (hz : '}' ∉ z) :
    subscriptBaseRule.fire? (z ++ '}' :: stripSubscriptBases rest) ≠ none ↔
      ∃ base sub t, Token base ∧ Subscript sub ∧
        z ++ '}' :: rest = withSubscript (braced base) sub ++ t ∧
        ¬ subscriptBaseRule.AppliesAt rest (braced sub ++ t) := by
  rw [fire?_ne_none_iff]
  constructor
  · rintro ⟨base, q, hbase, hq, h⟩
    obtain ⟨v, hv, hbraced, hstrip⟩ := (append_closing_eq_iff hz hbase).1 h
    obtain ⟨-, ⟨sub, t, hsub, rfl⟩, hrest, hkept⟩ :=
      (strip_eq_append_mark_iff hv).1 ⟨q, hq, hstrip⟩
    refine ⟨base, sub, t, hbase, hsub, ?_, by rwa [braced_append]⟩
    rw [withSubscript_braced_append]
    exact (append_closing_eq_iff hz hbase).2 ⟨v, hv, hbraced, hrest⟩
  · rintro ⟨base, sub, t, hbase, hsub, h, hkept⟩
    rw [withSubscript_braced_append] at h
    rw [braced_append] at hkept
    obtain ⟨v, hv, hbraced, hrest⟩ := (append_closing_eq_iff hz hbase).1 h
    obtain ⟨q, hq, hstrip⟩ := (strip_eq_append_mark_iff hv).2
      ⟨_, ⟨sub, t, hsub, rfl⟩, hrest, hkept⟩
    exact ⟨base, q, hbase, hq, (append_closing_eq_iff hz hbase).2 ⟨v, hv, hbraced, hstrip⟩⟩

section
variable {rest : Text} (hbase : Token base) (hsub : Subscript sub)
include hbase hsub

/-- What is left behind after a base has been read is behind it, or begins in its subscript. -/
theorem LeavesBase.read_cases (h : LeavesBase (withSubscript (braced base) sub ++ rest)) :
    (∃ z, z <:+ '{' :: sub ∧
      subscriptBaseRule.fire? (z ++ '}' :: stripSubscriptBases rest) ≠ none) ∨
      LeavesBase rest := by
  have hfire := fire?_read hbase hsub rest
  rcases h with @⟨base', sub', t, hbase', hsub', hs, hread, hkept⟩ | @⟨sub', t, hsub', hs, hread⟩
  · have hfire' := Option.ne_none_iff_exists'.2 ⟨_, fire?_read hbase' hsub' t⟩
    rcases suffix_read_cases hbase hs hfire' with heq | ⟨z, hz, heq⟩ | hs
    · rw [heq] at hread
      exact absurd (.here hfire) hread
    · exact Or.inl ⟨z, hz, (fire?_append_strip_iff (hsub.closing_not_mem_suffix hz)).2
        ⟨base', sub', t, hbase', hsub', heq.symm, mt (.write hfire) hkept⟩⟩
    · exact Or.inr (.hidden hbase' hsub' hs (mt (.write hfire) hread) (mt (.write hfire) hkept))
  · have hle := hs.length_le
    simp only [List.length_cons] at hle
    rw [Rule.appliesAt_iff_of_length_lt hfire (by omega)] at hread
    have hend : withSubscript (braced base) sub ++ rest =
        ('{' :: (base ++ '}' :: '_' :: '{' :: sub)) ++ '}' :: rest := by
      simp [withSubscript_braced_append]
    rw [hend] at hs
    exact Or.inr (.escaped hsub' (escape_suffix_of_length_le hs hread.isSuffix.length_le) hread)

/-- A base that begins in the subscript of another one is read over with that. -/
theorem leavesBase_of_fire? {z : Text} (hz : z <:+ '{' :: sub)
    (h : subscriptBaseRule.fire? (z ++ '}' :: stripSubscriptBases rest) ≠ none) :
    LeavesBase (withSubscript (braced base) sub ++ rest) := by
  have hfire := fire?_read hbase hsub rest
  obtain ⟨base', sub', t, hbase', hsub', heq, hkept⟩ :=
    (fire?_append_strip_iff (hsub.closing_not_mem_suffix hz)).1 h
  have hs := append_closing_isSuffix hz (braced base) rest
  have hlength := congrArg List.length heq
  have hle := hz.length_le
  simp only [List.length_append, List.length_cons, length_withSubscript, length_braced]
    at hlength hle
  have hlt : (z ++ '}' :: rest).length < (withSubscript (braced base) sub ++ rest).length := by
    simp only [List.length_append, List.length_cons, length_withSubscript, length_braced]
    omega
  have hlt' : (braced sub' ++ t).length < (z ++ '}' :: rest).length := by
    simp only [List.length_append, List.length_cons, length_braced]
    omega
  have hread : ¬ subscriptBaseRule.AppliesAt rest (z ++ '}' :: rest) := by
    intro hat
    have hsuffix := hat.isSuffix.length_le
    simp only [List.length_append, List.length_cons] at hsuffix
    omega
  rw [← Rule.appliesAt_iff_of_length_lt hfire hlt] at hread
  rw [← Rule.appliesAt_iff_of_length_lt hfire (Nat.lt_trans hlt' hlt)] at hkept
  rw [heq] at hs hread
  exact .hidden hbase' hsub' hs hread hkept

/-- What is left behind in the text that follows a base is left behind there all the same. -/
theorem LeavesBase.append_read (h : LeavesBase rest) :
    LeavesBase (withSubscript (braced base) sub ++ rest) := by
  have hfire := fire?_read hbase hsub rest
  have hsuffix : rest <:+ withSubscript (braced base) sub ++ rest := List.suffix_append _ rest
  have hlt := Rule.length_lt_of_fire? hfire
  rcases h with @⟨base', sub', t, hbase', hsub', hs, hread, hkept⟩ | @⟨sub', t, hsub', hs, hread⟩
  · have hle := hs.length_le
    have hle' : (braced sub' ++ t).length ≤ (withSubscript (braced base') sub' ++ t).length := by
      simp only [List.length_append, length_withSubscript, length_braced]
      omega
    rw [← Rule.appliesAt_iff_of_length_lt hfire (by omega)] at hread hkept
    exact .hidden hbase' hsub' (hs.trans hsuffix) hread hkept
  · exact .escaped hsub' (hs.trans hsuffix) (.write hfire hread)

theorem leavesBase_read_iff :
    LeavesBase (withSubscript (braced base) sub ++ rest) ↔
      (∃ z, z <:+ '{' :: sub ∧
        subscriptBaseRule.fire? (z ++ '}' :: stripSubscriptBases rest) ≠ none) ∨
        LeavesBase rest := by
  constructor
  · exact LeavesBase.read_cases hbase hsub
  · rintro (⟨z, hz, h⟩ | h)
    · exact leavesBase_of_fire? hbase hsub hz h
    · exact h.append_read hbase hsub

end

theorem not_leavesBase_nil : ¬ LeavesBase [] := by
  rintro (⟨-, -, h, -, -⟩ | ⟨-, h, -⟩) <;> simp [withSubscript] at h

/-- A braced base is left behind in two ways and in no other, and it is what a second pass
    changes. -/
theorem hasBracedBase_strip_iff (s : Text) :
    (HasBracedBase (stripSubscriptBases s) ↔ LeavesBase s) ∧
      (stripSubscriptBases (stripSubscriptBases s) = stripSubscriptBases s ↔ ¬ LeavesBase s) := by
  have hleaves : HasBracedBase (stripSubscriptBases s) ↔ LeavesBase s := by
    refine Rule.reading_induction (r := subscriptBaseRule)
      (P := fun s => HasBracedBase (stripSubscriptBases s) ↔ LeavesBase s) ?_ ?_ ?_ s
    · rw [stripSubscriptBases, Rule.pass_nil]
      exact iff_of_false not_hasBracedBase_nil not_leavesBase_nil
    · intro c s hnone ih
      rw [leavesBase_cons_iff hnone, ← ih, stripSubscriptBases, Rule.pass_cons_of_fire? hnone,
        hasBracedBase_cons_iff]
      rfl
    · intro s y rest hfire ih
      have hpass := Rule.pass_of_fire? hfire
      obtain ⟨base, sub, hbase, hsub, rfl, rfl⟩ := fire?_subscriptBaseRule_eq_some_iff.1 hfire
      rw [leavesBase_read_iff hbase hsub, ← ih, stripSubscriptBases, hpass,
        hasBracedBase_written_iff hbase]
      rfl
  refine ⟨hleaves, ?_⟩
  rw [← hleaves, hasBracedBase_iff, stripSubscriptBases,
    Rule.pass_eq_self_iff fun s : Text => (s.length : Int)]
  · simp
  · simp
  · intro x y hw
    obtain ⟨base, sub, -, -, rfl, rfl⟩ := writes_subscriptBaseRule hw
    rw [length_withSubscript, length_withSubscript, length_braced]
    omega

/-- `{a}_{{b}_{c}}` becomes `a_{{b}_{c}}`, and that becomes `a_{b_{c}}`. -/
theorem hasBracedBase_strip_nested :
    HasBracedBase (stripSubscriptBases "{a}_{{b}_{c}}".toList) ∧
      stripSubscriptBases (stripSubscriptBases "{a}_{{b}_{c}}".toList) ≠
        stripSubscriptBases "{a}_{{b}_{c}}".toList := by
  have hfirst : stripSubscriptBases "{a}_{{b}_{c}}".toList = "a_{{b}_{c}}".toList := by
    decide +kernel
  have hsecond : stripSubscriptBases "a_{{b}_{c}}".toList = "a_{b_{c}}".toList := by
    decide +kernel
  rw [hfirst, hsecond]
  have hbase : Token ['b'] := .single (by decide) (by decide) (by decide)
  have hsub : Subscript ['c'] := ⟨by decide, by decide⟩
  exact ⟨⟨['b'], ['c'], hbase, hsub, ['a', '_', '{'], ['}'], rfl⟩, by decide⟩

end TidyTex.Text
