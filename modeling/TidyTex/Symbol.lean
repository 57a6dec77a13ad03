import TidyTex.Sign

/-! Operators written as single Unicode characters, and the signs of LaTeX that they stand for.

    A command would run together with a letter behind it, so folding a symbol to a command puts a
    space in front of an ASCII letter. -/

namespace TidyTex

/-- The known symbols, each with its sign. -/
def symbols : List (Char × Sign) :=
  [('±', .command "pm"), ('∓', .command "mp"), ('×', .command "times"), ('·', .command "cdot"),
    ('⋅', .command "cdot"), ('−', .symbol '-'), ('≤', .command "le"), ('≥', .command "ge"),
    ('≠', .command "neq"), ('≈', .command "approx")]

/-- The sign that a symbol stands for. -/
def sign? (c : Char) : Option Sign := symbols.lookup c

/-- The space between a sign and the text behind it: one, where a command meets a letter. -/
def Sign.gap : Sign → Text → Text
  | symbol _, _ => []
  | command _, s => if s.head?.any Char.isAlpha then [' '] else []

namespace Text

/-- Writes every known symbol as its sign. -/
def foldSymbols : Text → Text
  | [] => []
  | c :: s =>
    match sign? c with
    | some sign => sign.spelling ++ sign.gap s ++ foldSymbols s
    | none => c :: foldSymbols s

/-- Whether a character is in ASCII. -/
def isAscii (c : Char) : Bool := c.toNat < 128

/-- A text without its characters beyond ASCII. -/
def stripNonAscii (s : Text) : Text := s.filter isAscii

/-- Every known symbol lies beyond ASCII. -/
theorem isAscii_of_sign?_isSome {c : Char} (h : (sign? c).isSome) : isAscii c = false := by
  cases hs : sign? c with
  | none => simp [hs] at h
  | some sign =>
    obtain ⟨l, r, he, -⟩ := List.lookup_eq_some_iff.1 hs
    have hmem : (c, sign) ∈ symbols := by rw [he]; simp
    have hall : ∀ p ∈ symbols, isAscii p.1 = false := by decide
    exact hall _ hmem

/-- A text in ASCII has nothing to fold. -/
theorem foldSymbols_eq_self {s : Text} (h : ∀ c ∈ s, isAscii c = true) : foldSymbols s = s := by
  induction s with
  | nil => rfl
  | cons c s ih =>
    cases hs : sign? c with
    | some sign =>
      have hc := isAscii_of_sign?_isSome (c := c) (by rw [hs]; rfl)
      simp [h c (List.mem_cons_self ..)] at hc
    | none => rw [foldSymbols, hs, ih fun d hd => h d (List.mem_cons_of_mem _ hd)]

end Text

end TidyTex
