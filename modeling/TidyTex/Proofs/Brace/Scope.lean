import TidyTex.Brace.Scope

/-! The grammar of scopes.

        content  ::=  empty  |  c content  |  \ d content  |  { content } content

    Here `c` is any character but a backslash and the braces, and `d` is any character at all. The
    scope of a brace is content with a closing brace behind it. The scan counts how many groups are
    open and knows no more of them:

        content                      ──▶ leaves the count as it is (`scopeBody?_append`)
        what is read at a count `n`  ──▶ content, but for `n` closing braces (`closing_of_scopeBody?`)

    From the first follows that every scope of the grammar is found, and from the second, at a count
    of zero, that nothing else is. -/

namespace TidyTex.Text

/-- The texts that the grammar of scopes derives. -/
inductive ScopeContent : Text → Prop
  | nil : ScopeContent []
  | char {c : Char} {s : Text} (hc : c ≠ '\\' ∧ c ≠ '{' ∧ c ≠ '}') (hs : ScopeContent s) :
      ScopeContent (c :: s)
  | escaped (d : Char) {s : Text} (hs : ScopeContent s) : ScopeContent ('\\' :: d :: s)
  | group {s t : Text} (hs : ScopeContent s) (ht : ScopeContent t) :
      ScopeContent ('{' :: (s ++ '}' :: t))

theorem ScopeContent.append {s t : Text} (hs : ScopeContent s) (ht : ScopeContent t) :
    ScopeContent (s ++ t) := by
  induction hs with
  | nil => exact ht
  | char hc _ ih => exact .char hc ih
  | escaped d _ ih => exact .escaped d ih
  | group hbody _ _ ih =>
    rw [List.cons_append, List.append_assoc, List.cons_append]
    exact .group hbody ih

/-! ### Every scope is found -/

/-- A character that stands for itself is passed over. -/
theorem scopeBody?_cons {c : Char} (hc : c ≠ '\\' ∧ c ≠ '{' ∧ c ≠ '}') (depth : Nat) (s : Text) :
    scopeBody? depth (c :: s) = (scopeBody? depth s).map (·.prepend [c]) := by
  obtain ⟨hb, ho, hcl⟩ := hc
  cases depth with
  | zero => simp [scopeBody?, hb, hcl]
  | succ depth => simp [scopeBody?, hb, hcl]

/-- Content is passed over, at whatever depth. -/
theorem scopeBody?_append {w : Text} (hw : ScopeContent w) (depth : Nat) (r : Text) :
    scopeBody? depth (w ++ r) = (scopeBody? depth r).map (·.prepend w) := by
  induction hw generalizing depth r with
  | nil => simp [Cut.prepend_nil]
  | char hc _ ih => simp [scopeBody?_cons hc, ih, Function.comp_def]
  | escaped d _ ih => simp [scopeBody?, ih, Function.comp_def]
  | group _ _ ihs iht => simp [scopeBody?, ihs, iht, Function.comp_def]

/-! ### Nothing else is -/

/-- Content, but for `n` braces in it that close groups opened before it. -/
def ClosingContent : Nat → Text → Prop
  | 0, s => ScopeContent s
  | n + 1, s => ∃ w t, s = w ++ '}' :: t ∧ ScopeContent w ∧ ClosingContent n t

theorem ClosingContent.append {n : Nat} {w t : Text} (hw : ScopeContent w)
    (ht : ClosingContent n t) : ClosingContent n (w ++ t) := by
  cases n with
  | zero => exact ScopeContent.append hw ht
  | succ n =>
    obtain ⟨u, v, rfl, hu, hv⟩ := ht
    exact ⟨w ++ u, v, by rw [List.append_assoc], hw.append hu, hv⟩

/-- One of the closing braces closes a group that is opened in front. -/
theorem ClosingContent.group {n : Nat} {s : Text} (hs : ClosingContent (n + 1) s) :
    ClosingContent n ('{' :: s) := by
  obtain ⟨w, t, rfl, hw, ht⟩ := hs
  have hgroup : ScopeContent ('{' :: (w ++ ['}'])) := .group hw .nil
  have hsplit : '{' :: (w ++ '}' :: t) = '{' :: (w ++ ['}']) ++ t := by simp
  rw [hsplit]
  exact append hgroup ht

theorem closing_of_scopeBody? {depth : Nat} {s : Text} {k : Cut}
    (h : scopeBody? depth s = some k) : ClosingContent depth k.before := by
  fun_induction scopeBody? depth s generalizing k with
  | case1 depth d s ih =>
    obtain ⟨j, hj, rfl⟩ := Option.map_eq_some_iff.1 h
    exact .append (.escaped d .nil) (ih hj)
  | case2 depth s ih =>
    obtain ⟨j, hj, rfl⟩ := Option.map_eq_some_iff.1 h
    exact .group (ih hj)
  | case3 s =>
    cases h
    exact ScopeContent.nil
  | case4 depth s ih =>
    obtain ⟨j, hj, rfl⟩ := Option.map_eq_some_iff.1 h
    exact ⟨[], j.before, rfl, .nil, ih hj⟩
  | case5 depth c s hescape hopening hclosing hclosing' ih =>
    obtain ⟨j, hj, rfl⟩ := Option.map_eq_some_iff.1 h
    rcases lone_cases hescape with hb | ⟨rfl, rfl⟩
    · exact .append (.char ⟨hb, hopening, ne_closing hclosing hclosing'⟩ .nil) (ih hj)
    · -- A backslash with nothing behind it ends the text, and no scope is closed there.
      cases hj
  | case6 => cases h

/-- The scan finds exactly the content with a closing brace behind it. -/
theorem scopeBody?_eq_some_iff {s : Text} {k : Cut} :
    scopeBody? 0 s = some k ↔ s = k.before ++ '}' :: k.after ∧ ScopeContent k.before := by
  constructor
  · intro h
    exact ⟨append_of_scopeBody? h, closing_of_scopeBody? h⟩
  · rintro ⟨hs, hbefore⟩
    rw [hs, scopeBody?_append hbefore, scopeBody?, Option.map_some, Cut.prepend, List.append_nil]

/-- Whether `w` is the content of a scope whose brace stands at offset `p`. There has to be a
    character boundary right behind the brace, from which the text reads `w` and a closing
    brace. -/
def IsScopeAt (s : Text) (p : Nat) (w : Text) : Prop :=
  ∃ a r, s = a ++ (w ++ '}' :: r) ∧ byteLength a = p + 1 ∧ ScopeContent w

theorem scopeAt?_eq_some_iff_exists {s : Text} {p : Nat} {scope : Scope} :
    scopeAt? s p = some scope ↔
      ∃ w, IsScopeAt s p w ∧ scope = ⟨p, p + 1 + byteLength w, w⟩ := by
  rw [scopeAt?_eq_some_iff]
  constructor
  · rintro ⟨a, t, k, rfl, ha, hk, rfl⟩
    obtain ⟨rfl, hw⟩ := scopeBody?_eq_some_iff.1 hk
    exact ⟨k.before, ⟨a, k.after, rfl, ha, hw⟩, rfl⟩
  · rintro ⟨w, ⟨a, r, rfl, ha, hw⟩, rfl⟩
    exact ⟨a, w ++ '}' :: r, ⟨w, r⟩, rfl, ha, scopeBody?_eq_some_iff.2 ⟨rfl, hw⟩, rfl⟩

/-- The scope at an offset is the one that the grammar derives there, of which there is no other, and
    where the grammar derives none there is no scope. -/
theorem scopeAt?_iff_isScopeAt (s : Text) (p : Nat) :
    (∀ scope, scopeAt? s p = some scope ↔
        ∃ w, IsScopeAt s p w ∧ scope = ⟨p, p + 1 + byteLength w, w⟩) ∧
      (scopeAt? s p = none ↔ ¬ ∃ w, IsScopeAt s p w) ∧
      ∀ v w, IsScopeAt s p v → IsScopeAt s p w → v = w := by
  refine ⟨fun scope => scopeAt?_eq_some_iff_exists, ?_, ?_⟩
  · rw [Option.eq_none_iff_forall_ne_some]
    constructor
    · rintro h ⟨w, hw⟩
      exact h _ (scopeAt?_eq_some_iff_exists.2 ⟨w, hw, rfl⟩)
    · intro h scope hscope
      obtain ⟨w, hw, -⟩ := scopeAt?_eq_some_iff_exists.1 hscope
      exact h ⟨w, hw⟩
  · intro v w hv hw
    have hv' := scopeAt?_eq_some_iff_exists.2 ⟨v, hv, rfl⟩
    have hw' := scopeAt?_eq_some_iff_exists.2 ⟨w, hw, rfl⟩
    rw [hv', Option.some.injEq] at hw'
    exact congrArg Scope.content hw'

end TidyTex.Text
