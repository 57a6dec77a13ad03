/-! Spans of code points, the form in which the tables of character properties are written. -/

namespace TidyTex

/-- The code points from `first` to `last`, both included. -/
structure Span where
  first : Nat
  last : Nat
  deriving DecidableEq, Repr

/-- Whether the span holds the code point of a character. -/
def Span.covers (p : Span) (c : Char) : Bool := p.first ≤ c.toNat && c.toNat ≤ p.last

theorem Span.covers_eq_true_iff {p : Span} {c : Char} :
    p.covers c = true ↔ p.first ≤ c.toNat ∧ c.toNat ≤ p.last := by
  simp [covers]

end TidyTex
