import TidyTex.Text.Rule

/-! Braces around the base of a subscript are dropped when they hold a single token, one character
    or one command: `{x}_{0}` becomes `x_{0}`. -/

namespace TidyTex.Text

/-- A single token at the head of a text: a command of letters, an escaped character other than a
    line feed, or one character that is no brace. -/
def token? : Text → Option Cut
  | '\\' :: c :: s =>
    if c.isAlpha then some ((run Char.isAlpha (c :: s)).prepend ['\\'])
    else if c = '\n' then none
    else some ⟨['\\', c], s⟩
  | c :: s => if c = '{' ∨ c = '}' ∨ c = '\\' then none else some ⟨[c], s⟩
  | [] => none

/-- A braced subscript right after a closing brace: its content and what follows it. -/
def subscript? (s : Text) : Option Cut :=
  (after? ['}', '_', '{'] s).bind fun t =>
    let sub := run (· != '}') t
    if sub.before = [] then none else (after? ['}'] sub.after).map (⟨sub.before, ·⟩)

theorem append_of_token? {s : Text} {k : Cut} (h : token? s = some k) :
    s = k.before ++ k.after := by
  unfold token? at h
  split at h
  · split at h
    · cases h; simp [run_append]
    · split at h <;> cases h; rfl
  · split at h <;> cases h; rfl
  · cases h

theorem after_subscript?_suffix {s : Text} {k : Cut} (h : subscript? s = some k) :
    k.after <:+ s := by
  obtain ⟨t, ht, h⟩ := Option.bind_eq_some_iff.1 h
  simp only at h
  split at h
  · cases h
  · obtain ⟨r, hr, rfl⟩ := Option.map_eq_some_iff.1 h
    have hsub : (run (· != '}') t).after <:+ t := after_run_suffix _ _
    rw [after?_eq_some_iff.1 hr] at hsub
    rw [after?_eq_some_iff.1 ht]
    exact ((List.suffix_append ['}'] r).trans hsub).trans (List.suffix_append _ _)

/-- Drops the braces around a token that carries a braced subscript. -/
def subscriptBaseRule : Rule where
  head := ['{']
  body s :=
    (token? s).bind fun base =>
      (subscript? base.after).map fun sub => (base.before ++ '_' :: braced sub.before, sub.after)
  head_ne_nil := by decide
  body_suffix h := by
    obtain ⟨base, hbase, h⟩ := Option.bind_eq_some_iff.1 h
    obtain ⟨sub, hsub, h⟩ := Option.map_eq_some_iff.1 h
    cases h
    rw [append_of_token? hbase]
    exact (after_subscript?_suffix hsub).trans (List.suffix_append _ _)

/-- Drops the braces around every subscript base that is a single token. -/
def stripSubscriptBases (s : Text) : Text := subscriptBaseRule.pass s

end TidyTex.Text
