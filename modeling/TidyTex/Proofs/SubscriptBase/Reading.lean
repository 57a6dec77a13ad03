import TidyTex.Brace.SubscriptBase
import TidyTex.Proofs.Occurrence
import TidyTex.Proofs.Rule

/-! Braced bases of subscripts, and where the rule for them applies.

    A base is read when it is a single token in braces and a subscript in braces follows it. The
    subscript goes up to the first closing brace, so that opening braces may stand in it:

        {\hat}_{i}    ──▶    \hat_{i}
        {a}_{{b}      ──▶    a_{{b}

    The rule applies where it finds those parts (`fire?_subscriptBaseRule_eq_some_iff`), and a text
    has a braced base where the rule applies at an ending of it (`hasBracedBase_iff`). In what is
    read and in what is written that is at the head, or in the subscript or behind it
    (`suffix_read_cases`, `suffix_written_cases`), as a token holds no brace but an escaped one. -/

namespace TidyTex.Text

/-- A single token: a command in letters, an escaped character that is no line feed, or a character
    that is neither a brace nor a backslash. -/
inductive Token : Text → Prop
  | command {name : Text} (hne : name ≠ []) (hname : ∀ c ∈ name, c.isAlpha = true) :
      Token ('\\' :: name)
  | escaped {c : Char} (hc : c ≠ '\n') : Token ['\\', c]
  | single {c : Char} (hopening : c ≠ '{') (hclosing : c ≠ '}') (hescape : c ≠ '\\') : Token [c]

/-- What may stand between the braces of a subscript. -/
structure Subscript (sub : Text) : Prop where
  ne_nil : sub ≠ []
  closing_not_mem : '}' ∉ sub

theorem Subscript.closing_not_mem_suffix {sub z : Text} (h : Subscript sub)
    (hz : z <:+ '{' :: sub) : '}' ∉ z := by
  intro hmem
  simpa [h.closing_not_mem] using hz.subset hmem

/-- A base with a subscript in braces. -/
def withSubscript (base sub : Text) : Text := base ++ '_' :: braced sub

/-- Somewhere in the text stands a single token in braces that has a subscript. -/
def HasBracedBase (s : Text) : Prop :=
  ∃ base sub, Token base ∧ Subscript sub ∧ withSubscript (braced base) sub <:+: s

variable {base sub s t q : Text}

theorem withSubscript_append (base sub t : Text) :
    withSubscript base sub ++ t = base ++ '_' :: '{' :: (sub ++ '}' :: t) := by
  simp [withSubscript, braced]

theorem withSubscript_braced_append (base sub t : Text) :
    withSubscript (braced base) sub ++ t =
      '{' :: (base ++ '}' :: '_' :: '{' :: (sub ++ '}' :: t)) := by
  simp [withSubscript, braced]

theorem length_withSubscript (base sub : Text) :
    (withSubscript base sub).length = base.length + sub.length + 3 := by
  simp [withSubscript, braced]
  omega

/-! ### Tokens -/

/-- A token begins with a character that is no brace. -/
theorem Token.exists_cons (h : Token base) : ∃ c t, base = c :: t ∧ c ≠ '{' ∧ c ≠ '}' := by
  cases h with
  | @command name _ _ => exact ⟨'\\', name, rfl, by decide, by decide⟩
  | @escaped c _ => exact ⟨'\\', [c], rfl, by decide, by decide⟩
  | @single c hopening hclosing _ => exact ⟨c, [], rfl, hopening, hclosing⟩

/-- A character that is no letter and no backslash is all of a token, but for a backslash before
    it. -/
theorem Token.eq_of_mem (h : Token base) {d : Char} (hletter : d.isAlpha = false)
    (hescape : d ≠ '\\') (hmem : d ∈ base) : base = [d] ∨ base = ['\\', d] := by
  cases h with
  | command _ hname =>
    rcases List.mem_cons.1 hmem with rfl | hmem
    · exact absurd rfl hescape
    · rw [hname d hmem] at hletter; cases hletter
  | escaped _ =>
    rcases List.mem_cons.1 hmem with rfl | hmem
    · exact absurd rfl hescape
    · exact Or.inr (by rw [List.mem_singleton.1 hmem])
  | single _ _ _ => exact Or.inl (by rw [List.mem_singleton.1 hmem])

/-- A brace in a token is escaped. -/
theorem Token.brace_cases (h : Token base) {d : Char} (hd : d = '{' ∨ d = '}') :
    d ∉ base ∨ base = ['\\', d] := by
  by_cases hmem : d ∈ base
  · have hletter : d.isAlpha = false ∧ d ≠ '\\' := by rcases hd with rfl | rfl <;> decide
    rcases h.eq_of_mem hletter.1 hletter.2 hmem with rfl | hbase
    · obtain ⟨c, t, hc, hopening, hclosing⟩ := h.exists_cons
      obtain ⟨rfl, -⟩ := List.cons.inj hc
      exact absurd hd (not_or.2 ⟨hopening, hclosing⟩)
    · exact Or.inr hbase
  · exact Or.inl hmem

theorem Token.ne_escape (h : Token base) : base ≠ ['\\'] := by
  rintro rfl
  cases h with
  | command hne _ => exact hne rfl
  | single _ _ hescape => exact hescape rfl

/-- Before its last character, if that is a backslash, a token has a backslash and nothing else. -/
theorem Token.eq_of_concat_escape {a : Text} (h : Token (a ++ ['\\'])) : a = ['\\'] := by
  cases a with
  | nil => exact absurd rfl h.ne_escape
  | cons c a =>
    generalize hs : c :: a ++ ['\\'] = s at h
    cases h with
    | command _ hname =>
      obtain ⟨-, rfl⟩ := List.cons.inj hs
      exact absurd (hname '\\' (by simp)) (by decide)
    | escaped _ =>
      obtain ⟨rfl, htail⟩ := List.cons.inj hs
      rcases List.append_eq_singleton_iff.1 htail with ⟨rfl, -⟩ | ⟨-, hnil⟩
      · rfl
      · cases hnil
    | single _ _ _ => simp at hs

/-- Where something that is written begins inside a token that a closing brace follows, the token is
    an escaped backslash, and its second backslash escapes the brace. -/
theorem Token.eq_of_isPrefix {a b : Text} (h : Token (a ++ b)) (hb : b ≠ []) (hbase : Token base)
    (hp : withSubscript base sub <+: b ++ '}' :: t) :
    a = ['\\'] ∧ b = ['\\'] ∧ base = ['\\', '}'] := by
  rcases hbase.brace_cases (Or.inr rfl) with hclosing | rfl
  · -- The mark behind the base stands in the token too, so that the base is a lone backslash.
    have hmark : base ++ ['_'] <+: b ++ '}' :: t :=
      List.IsPrefix.trans ⟨braced sub, by simp [withSubscript]⟩ hp
    obtain ⟨w, rfl⟩ := (isPrefix_append_cons_iff (by simp [hclosing])).1 hmark
    obtain ⟨c, u, rfl, -, -⟩ := hbase.exists_cons
    rcases h.eq_of_mem (d := '_') (by decide) (by decide) (by simp) with heq | heq
    · have hlength := congrArg List.length heq
      simp at hlength
      omega
    · have hlength := congrArg List.length heq
      simp at hlength
      obtain rfl : a = [] := List.length_eq_zero_iff.1 (by omega)
      obtain rfl : u = [] := List.length_eq_zero_iff.1 (by omega)
      obtain ⟨rfl, -⟩ := List.cons.inj heq
      exact absurd rfl hbase.ne_escape
  · obtain ⟨u, hu⟩ := hp
    rcases List.cons_eq_append_iff.1 hu with ⟨rfl, -⟩ | ⟨b, rfl, hclosing⟩
    · exact absurd rfl hb
    rcases List.cons_eq_append_iff.1 hclosing with ⟨rfl, -⟩ | ⟨b, rfl, hmark⟩
    · exact ⟨h.eq_of_concat_escape, rfl, rfl⟩
    · -- A brace in the token ends it, and the mark does not stand there.
      rcases h.brace_cases (d := '}') (Or.inr rfl) with hmem | heq
      · exact absurd (by simp) hmem
      · have hlength := congrArg List.length heq
        simp at hlength
        obtain rfl : b = [] := List.length_eq_zero_iff.1 (by omega)
        cases hmark

/-! ### Reading a braced base -/

/-- A token is read up to the brace behind it. -/
theorem Token.token?_append (h : Token base) (t : Text) :
    token? (base ++ '}' :: t) = some ⟨base, '}' :: t⟩ := by
  cases h with
  | command hne hname =>
    obtain ⟨c, name, rfl⟩ := List.exists_cons_of_ne_nil hne
    have hc : c.isAlpha = true := hname c List.mem_cons_self
    have hrun : run Char.isAlpha (c :: name ++ '}' :: t) = ⟨c :: name, '}' :: t⟩ :=
      run_append_of_head? hname rfl
    rw [List.cons_append, List.cons_append, token?, if_pos hc, ← List.cons_append, hrun]
    rfl
  | @escaped c hc =>
    by_cases halpha : c.isAlpha = true
    · have hrun : run Char.isAlpha ([c] ++ '}' :: t) = ⟨[c], '}' :: t⟩ :=
        run_append_of_head? (by simpa using halpha) rfl
      rw [List.cons_append, List.cons_append, List.nil_append, token?, if_pos halpha]
      rw [List.cons_append, List.nil_append] at hrun
      rw [hrun]
      rfl
    · rw [List.cons_append, List.cons_append, List.nil_append, token?, if_neg halpha, if_neg hc]
  | @single c hopening hclosing hescape => simp [token?, hopening, hclosing, hescape]

theorem token_of_token? {k : Cut} (h : token? s = some k) : Token k.before := by
  unfold token? at h
  split at h
  · next c s =>
    split at h
    · next hc =>
      cases h
      have hname : (run Char.isAlpha (c :: s)).before ≠ [] := by simp [run, hc]
      exact .command hname fun d hd => of_mem_before_run hd
    · split at h
      · cases h
      · next hc => cases h; exact .escaped hc
  · next c s _ =>
    split at h
    · cases h
    · next hc =>
      cases h
      simp only [not_or] at hc
      exact .single hc.1 hc.2.1 hc.2.2
  · cases h

theorem run_closing (h : '}' ∉ s) : run (· != '}') (s ++ '}' :: t) = ⟨s, '}' :: t⟩ := by
  refine run_append_of_head? (fun c hc => ?_) (by simp)
  exact bne_iff_ne.2 (ne_of_mem_of_not_mem hc h)

/-- A subscript is read behind a closing brace wherever there is one. -/
theorem subscript?_eq_some_iff {rest : Text} :
    subscript? s = some ⟨sub, rest⟩ ↔
      Subscript sub ∧ s = '}' :: '_' :: '{' :: (sub ++ '}' :: rest) := by
  constructor
  · intro h
    obtain ⟨t, ht, h⟩ := Option.bind_eq_some_iff.1 h
    simp only at h
    split at h
    · cases h
    · next hne =>
      obtain ⟨r, hr, hk⟩ := Option.map_eq_some_iff.1 h
      cases hk
      have hrun := run_append (· != '}') t
      rw [after?_eq_some_iff.1 hr] at hrun
      refine ⟨⟨hne, fun hmem => ?_⟩, ?_⟩
      · simpa using of_mem_before_run hmem
      · rw [after?_eq_some_iff.1 ht]
        simpa using hrun.symm
  · rintro ⟨⟨hne, hclosing⟩, rfl⟩
    have hrun := run_closing (t := rest) hclosing
    have hopening : after? ['}', '_', '{'] ('}' :: '_' :: '{' :: (sub ++ '}' :: rest)) =
        some (sub ++ '}' :: rest) := after?_eq_some_iff.2 rfl
    have hend : after? ['}'] ('}' :: rest) = some rest := after?_eq_some_iff.2 rfl
    rw [subscript?, hopening, Option.bind_some]
    simp only [hrun, if_neg hne, hend, Option.map_some]

/-- The rule reads a braced base with its subscript and writes the base without braces. -/
theorem fire?_subscriptBaseRule_eq_some_iff {out rest : Text} :
    subscriptBaseRule.fire? s = some (out, rest) ↔
      ∃ base sub, Token base ∧ Subscript sub ∧ s = withSubscript (braced base) sub ++ rest ∧
        out = withSubscript base sub := by
  rw [Rule.fire?_eq_some_iff]
  constructor
  · rintro ⟨t, rfl, ht⟩
    obtain ⟨k, hk, ht⟩ := Option.bind_eq_some_iff.1 ht
    obtain ⟨⟨sub, rest'⟩, hsub, hout⟩ := Option.map_eq_some_iff.1 ht
    cases hout
    obtain ⟨hsub, hafter⟩ := subscript?_eq_some_iff.1 hsub
    refine ⟨k.before, sub, token_of_token? hk, hsub, ?_, rfl⟩
    rw [withSubscript_braced_append, ← hafter, ← append_of_token? hk]
    rfl
  · rintro ⟨base, sub, hbase, hsub, rfl, rfl⟩
    exact ⟨_, withSubscript_braced_append base sub rest, Option.bind_eq_some_iff.2
      ⟨_, hbase.token?_append _, Option.map_eq_some_iff.2
        ⟨⟨sub, rest⟩, subscript?_eq_some_iff.2 ⟨hsub, rfl⟩, rfl⟩⟩⟩

theorem fire?_read (hbase : Token base) (hsub : Subscript sub) (rest : Text) :
    subscriptBaseRule.fire? (withSubscript (braced base) sub ++ rest) =
      some (withSubscript base sub, rest) :=
  fire?_subscriptBaseRule_eq_some_iff.2 ⟨base, sub, hbase, hsub, rfl, rfl⟩

theorem writes_subscriptBaseRule {x y : Text} (h : subscriptBaseRule.Writes x y) :
    ∃ base sub, Token base ∧ Subscript sub ∧ x = withSubscript (braced base) sub ∧
      y = withSubscript base sub := by
  obtain ⟨rest, hfire⟩ := h
  obtain ⟨base, sub, hbase, hsub, hx, rfl⟩ := fire?_subscriptBaseRule_eq_some_iff.1 hfire
  exact ⟨base, sub, hbase, hsub, List.append_cancel_right hx, rfl⟩

/-- What follows the brace that opens a subscript, when the subscript has some content and is
    closed. -/
def Opened (q : Text) : Prop := ∃ sub rest, Subscript sub ∧ q = sub ++ '}' :: rest

theorem opened_iff : Opened q ↔ q.head? ≠ some '}' ∧ '}' ∈ q := by
  constructor
  · rintro ⟨sub, rest, ⟨hne, hclosing⟩, rfl⟩
    obtain ⟨c, sub, rfl⟩ := List.exists_cons_of_ne_nil hne
    rw [List.mem_cons, not_or] at hclosing
    exact ⟨fun h => hclosing.1 (Option.some.inj h).symm, by simp⟩
  · rintro ⟨hhead, hmem⟩
    obtain ⟨sub, rest, rfl, hclosing⟩ := List.eq_append_cons_of_mem hmem
    refine ⟨sub, rest, ⟨?_, hclosing⟩, rfl⟩
    rintro rfl
    exact hhead rfl

/-- The rule applies at a token in braces with an opened subscript. -/
theorem fire?_ne_none_iff :
    subscriptBaseRule.fire? s ≠ none ↔
      ∃ base q, Token base ∧ Opened q ∧ s = '{' :: (base ++ '}' :: '_' :: '{' :: q) := by
  rw [Option.ne_none_iff_exists']
  constructor
  · rintro ⟨⟨out, rest⟩, hfire⟩
    obtain ⟨base, sub, hbase, hsub, rfl, -⟩ := fire?_subscriptBaseRule_eq_some_iff.1 hfire
    exact ⟨base, _, hbase, ⟨sub, rest, hsub, rfl⟩, withSubscript_braced_append base sub rest⟩
  · rintro ⟨base, q, hbase, ⟨sub, rest, hsub, rfl⟩, rfl⟩
    rw [← withSubscript_braced_append]
    exact ⟨_, fire?_read hbase hsub rest⟩

/-- A text has a braced base where the rule applies at an ending of it. -/
theorem hasBracedBase_iff :
    HasBracedBase s ↔ ∃ t, t <:+ s ∧ subscriptBaseRule.fire? t ≠ none := by
  constructor
  · rintro ⟨base, sub, hbase, hsub, a, b, rfl⟩
    refine ⟨withSubscript (braced base) sub ++ b, by simp [List.append_assoc], ?_⟩
    exact Option.ne_none_iff_exists'.2 ⟨_, fire?_read hbase hsub b⟩
  · rintro ⟨t, ht, hfire⟩
    obtain ⟨⟨out, rest⟩, hfire⟩ := Option.ne_none_iff_exists'.1 hfire
    obtain ⟨base, sub, hbase, hsub, rfl, -⟩ := fire?_subscriptBaseRule_eq_some_iff.1 hfire
    exact ⟨base, sub, hbase, hsub, (List.prefix_append _ rest).isInfix.trans ht.isInfix⟩

theorem hasBracedBase_cons_iff {c : Char} :
    HasBracedBase (c :: s) ↔ subscriptBaseRule.fire? (c :: s) ≠ none ∨ HasBracedBase s := by
  rw [hasBracedBase_iff, hasBracedBase_iff]
  constructor
  · rintro ⟨t, ht, hfire⟩
    rcases List.suffix_cons_iff.1 ht with rfl | ht
    · exact Or.inl hfire
    · exact Or.inr ⟨t, ht, hfire⟩
  · rintro (hfire | ⟨t, ht, hfire⟩)
    · exact ⟨_, List.suffix_rfl, hfire⟩
    · exact ⟨t, ht.trans (List.suffix_cons c s), hfire⟩

theorem fire?_cons_of_ne {c : Char} (hc : c ≠ '{') : subscriptBaseRule.fire? (c :: s) = none :=
  Rule.fire?_eq_none_of_not_isPrefix fun h => hc (List.cons_prefix_cons.1 h).1.symm

/-! ### Where a braced base may begin -/

/-- The closing brace of a braced base is the first one behind its opening brace, or the next if the
    base is an escaped one. -/
theorem append_closing_eq_iff {z : Text} (hz : '}' ∉ z) (hbase : Token base) :
    z ++ '}' :: t = '{' :: (base ++ '}' :: '_' :: '{' :: q) ↔
      ∃ v, (v = [] ∨ v = ['}']) ∧ z ++ '}' :: v = braced base ∧ t = v ++ '_' :: '{' :: q := by
  constructor
  · intro h
    have hrun := congrArg (run (· != '}')) h
    rw [run_closing hz] at hrun
    rcases hbase.brace_cases (Or.inr rfl) with hclosing | rfl
    · rw [← List.cons_append, run_closing (by simp [hclosing])] at hrun
      cases hrun
      exact ⟨[], Or.inl rfl, rfl, rfl⟩
    · cases hrun
      exact ⟨['}'], Or.inr rfl, rfl, rfl⟩
  · rintro ⟨v, -, hbraced, rfl⟩
    rw [← List.cons_append, ← List.append_assoc, hbraced, braced_append]

theorem suffix_append_cases {w x : Text} (h : w <:+ x ++ t) :
    (∃ z, z <:+ x ∧ w = z ++ t) ∨ w <:+ t := by
  obtain ⟨a, ha⟩ := h
  rcases List.append_eq_append_iff.1 ha with ⟨z, rfl, rfl⟩ | ⟨z, rfl, rfl⟩
  · exact Or.inl ⟨z, List.suffix_append a z, rfl⟩
  · exact Or.inr (List.suffix_append z w)

/-- A brace and a backslash do not end at a closing brace. -/
theorem escape_suffix_of_length_le {w x : Text} (h : '{' :: '\\' :: w <:+ x ++ '}' :: t)
    (hw : w.length ≤ t.length) : '{' :: '\\' :: w <:+ t := by
  rcases suffix_append_cases h with ⟨z, -, hz⟩ | h
  · match z with
    | [] => cases hz
    | [_] => cases hz
    | _ :: _ :: z =>
      have hlength := congrArg List.length hz
      simp at hlength
      omega
  · rcases List.suffix_cons_iff.1 h with heq | h
    · cases heq
    · exact h

/-- The rule does not apply inside a token. -/
theorem Token.suffix_of_fire? (h : Token base) {w : Text} (hw : w <:+ base ++ t)
    (hfire : subscriptBaseRule.fire? w ≠ none) (ht : subscriptBaseRule.fire? ('{' :: t) = none) :
    w <:+ t := by
  rcases suffix_append_cases hw with ⟨z, hz, rfl⟩ | hw
  · cases z with
    | nil => exact List.suffix_rfl
    | cons c z =>
      obtain rfl : c = '{' := Classical.byContradiction fun hc => hfire (fire?_cons_of_ne hc)
      rcases h.brace_cases (Or.inl rfl) with hopening | rfl
      · exact absurd (hz.subset List.mem_cons_self) hopening
      · -- Of the two characters of the escaped brace the second one begins a text like that.
        rcases List.suffix_cons_iff.1 hz with hz | hz
        · cases hz
        · obtain rfl : z = [] := by simpa using hz.length_le
          exact absurd ht hfire
  · exact hw

theorem suffix_mark_cases {w : Text} (hw : w <:+ '_' :: '{' :: (sub ++ '}' :: t))
    (hfire : subscriptBaseRule.fire? w ≠ none) :
    (∃ z, z <:+ '{' :: sub ∧ w = z ++ '}' :: t) ∨ w <:+ t := by
  rcases List.suffix_cons_iff.1 hw with rfl | hw
  · exact absurd (fire?_cons_of_ne (by decide)) hfire
  rcases suffix_append_cases (x := '{' :: sub) hw with hz | hw
  · exact Or.inl hz
  rcases List.suffix_cons_iff.1 hw with rfl | hw
  · exact absurd (fire?_cons_of_ne (by decide)) hfire
  · exact Or.inr hw

theorem append_closing_isSuffix {z : Text} (h : z <:+ '{' :: sub) (base t : Text) :
    z ++ '}' :: t <:+ withSubscript base sub ++ t := by
  obtain ⟨a, ha⟩ := h
  refine ⟨base ++ '_' :: a, ?_⟩
  rw [withSubscript_append, ← List.cons_append, ← ha]
  simp

/-- Where the rule applies in what is written, it is in the subscript or behind it. -/
theorem suffix_written_cases (hbase : Token base) {w : Text}
    (hw : w <:+ withSubscript base sub ++ t) (hfire : subscriptBaseRule.fire? w ≠ none) :
    (∃ z, z <:+ '{' :: sub ∧ w = z ++ '}' :: t) ∨ w <:+ t := by
  rw [withSubscript_append] at hw
  exact suffix_mark_cases (hbase.suffix_of_fire? hw hfire rfl) hfire

/-- Where the rule applies in what is read, it is at the head, or in the subscript or behind it. -/
theorem suffix_read_cases (hbase : Token base) {w : Text}
    (hw : w <:+ withSubscript (braced base) sub ++ t) (hfire : subscriptBaseRule.fire? w ≠ none) :
    w = withSubscript (braced base) sub ++ t ∨ (∃ z, z <:+ '{' :: sub ∧ w = z ++ '}' :: t) ∨
      w <:+ t := by
  rw [withSubscript_braced_append] at hw ⊢
  rcases List.suffix_cons_iff.1 hw with rfl | hw
  · exact Or.inl rfl
  have hclosing := hbase.suffix_of_fire? hw hfire rfl
  rcases List.suffix_cons_iff.1 hclosing with rfl | hmark
  · exact absurd (fire?_cons_of_ne (by decide)) hfire
  · exact Or.inr (suffix_mark_cases hmark hfire)

/-- What is written has the braced bases that begin in its subscript and those that begin behind
    it. -/
theorem hasBracedBase_written_iff (hbase : Token base) :
    HasBracedBase (withSubscript base sub ++ t) ↔
      (∃ z, z <:+ '{' :: sub ∧ subscriptBaseRule.fire? (z ++ '}' :: t) ≠ none) ∨
        HasBracedBase t := by
  rw [hasBracedBase_iff, hasBracedBase_iff]
  constructor
  · rintro ⟨w, hw, hfire⟩
    rcases suffix_written_cases hbase hw hfire with ⟨z, hz, rfl⟩ | hw
    · exact Or.inl ⟨z, hz, hfire⟩
    · exact Or.inr ⟨w, hw, hfire⟩
  · rintro (⟨z, hz, hfire⟩ | ⟨w, hw, hfire⟩)
    · exact ⟨_, append_closing_isSuffix hz base t, hfire⟩
    · exact ⟨w, hw.trans (List.suffix_append _ t), hfire⟩

theorem not_hasBracedBase_nil : ¬ HasBracedBase [] := by
  rintro ⟨base, sub, -, -, h⟩
  simp [withSubscript] at h

end TidyTex.Text
