import TidyTex.Text.Basic

/-! The scope of a brace is the text up to the closing brace that matches it. A backslash escapes
    the character after it, and an escaped brace counts as text.

    `append_of_scopeBody?` says that the scope and what follows it make up the text, and
    `scopeAt?_eq_some_iff` reads a scope off the text around it. -/

namespace TidyTex

/-- A group of a text, known by the offsets of its braces and the text between them. -/
structure Scope where
  opening : Nat
  closing : Nat
  content : Text
  deriving DecidableEq, Repr

/-- The offset right after the closing brace. -/
def Scope.stop (scope : Scope) : Nat := scope.closing + 1

namespace Text

/-- The cut at the brace that ends a group, seen from `depth` groups further in. -/
def scopeBody? : Nat → Text → Option Cut
  | depth, '\\' :: c :: s => (scopeBody? depth s).map (·.prepend ['\\', c])
  | depth, '{' :: s => (scopeBody? (depth + 1) s).map (·.prepend ['{'])
  | 0, '}' :: s => some ⟨[], s⟩
  | depth + 1, '}' :: s => (scopeBody? depth s).map (·.prepend ['}'])
  | depth, c :: s => (scopeBody? depth s).map (·.prepend [c])
  | _, [] => none

theorem append_of_scopeBody? {depth : Nat} {s : Text} {k : Cut} (h : scopeBody? depth s = some k) :
    s = k.before ++ '}' :: k.after := by
  fun_induction scopeBody? depth s generalizing k with
  | case3 s => cases h; rfl
  | case6 => cases h
  | case1 _ _ _ ih | case2 _ _ ih | case4 _ _ ih | case5 _ _ _ _ _ _ _ ih =>
    obtain ⟨j, hj, rfl⟩ := Option.map_eq_some_iff.1 h
    simpa using ih hj

/-- A character that does not make a pair with the next one is no backslash, or it is the last. -/
theorem lone_cases {c : Char} {s : Text} (h : ∀ d t, c = '\\' → s = d :: t → False) :
    c ≠ '\\' ∨ c = '\\' ∧ s = [] := by
  cases s with
  | nil => exact (Decidable.em (c = '\\')).symm.imp_right fun hc => ⟨hc, rfl⟩
  | cons d s => exact Or.inl fun hc => h d s hc rfl

/-- A character that closes no group at any depth is no closing brace. -/
theorem ne_closing {depth : Nat} {c : Char} (hzero : depth = 0 → c ≠ '}')
    (hsucc : ∀ d, depth = d + 1 → c ≠ '}') : c ≠ '}' := by
  cases depth with
  | zero => exact hzero rfl
  | succ d => exact hsucc d rfl

/-- The scope of the brace at offset `p`. The character at `p` itself is not looked at. -/
def scopeAt? (s : Text) (p : Nat) : Option Scope :=
  (cutAt? s (p + 1)).bind fun k =>
    (scopeBody? 0 k.after).map fun body => ⟨p, p + 1 + byteLength body.before, body.before⟩

theorem scopeAt?_eq_some_iff {s : Text} {p : Nat} {scope : Scope} :
    scopeAt? s p = some scope ↔ ∃ a t k, s = a ++ t ∧ byteLength a = p + 1 ∧
      scopeBody? 0 t = some k ∧ scope = ⟨p, p + 1 + byteLength k.before, k.before⟩ := by
  simp only [scopeAt?, Option.bind_eq_some_iff, Option.map_eq_some_iff, cutAt?_eq_some_iff]
  constructor
  · rintro ⟨⟨a, t⟩, ⟨hs, ha⟩, k, hk, rfl⟩
    exact ⟨a, t, k, hs, ha, hk, rfl⟩
  · rintro ⟨a, t, k, hs, ha, hk, rfl⟩
    exact ⟨⟨a, t⟩, ⟨hs, ha⟩, k, hk, rfl⟩

end Text

end TidyTex
