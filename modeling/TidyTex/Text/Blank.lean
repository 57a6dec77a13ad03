import TidyTex.Text.Basic
import TidyTex.Text.Span

/-! Blank characters are those with the Unicode property `White_Space`, and trimming a text removes
    them from both of its ends. `trim_isInfix` says that trimming only selects, and `trimmed_trim`
    that neither end of a trimmed text is blank. -/

namespace TidyTex

/-- The code points with the property `White_Space`. -/
def blankSpans : List Span :=
  [⟨0x9, 0xD⟩, ⟨0x20, 0x20⟩, ⟨0x85, 0x85⟩, ⟨0xA0, 0xA0⟩, ⟨0x1680, 0x1680⟩, ⟨0x2000, 0x200A⟩,
  ⟨0x2028, 0x2029⟩, ⟨0x202F, 0x202F⟩, ⟨0x205F, 0x205F⟩, ⟨0x3000, 0x3000⟩]

/-- Whether a character has the property `White_Space`. -/
def isBlank (c : Char) : Bool := blankSpans.any (·.covers c)

/-- A character that is blank in ASCII is blank. -/
theorem isBlank_of_isWhitespace {c : Char} (h : c.isWhitespace = true) : isBlank c = true := by
  simp only [Char.isWhitespace, Bool.or_eq_true, decide_eq_true_eq] at h
  rcases h with ((rfl | rfl) | rfl) | rfl <;> decide

namespace Text

/-- A text without the blanks at its head. -/
def trimLeft (s : Text) : Text := s.dropWhile isBlank

/-- A text without the blanks at its tail. -/
def trimRight (s : Text) : Text := (s.reverse.dropWhile isBlank).reverse

/-- A text without the blanks at either end. -/
def trim (s : Text) : Text := trimRight (trimLeft s)

theorem trimRight_isPrefix (s : Text) : trimRight s <+: s := by
  have h := List.dropWhile_suffix isBlank (l := s.reverse)
  rw [← List.reverse_prefix] at h
  simpa [trimRight] using h

/-- Trimming returns a contiguous part of the text. -/
theorem trim_isInfix (s : Text) : trim s <:+: s :=
  (trimRight_isPrefix _).isInfix.trans (List.dropWhile_suffix isBlank).isInfix

/-- A text with no blank at its head and none at its tail. -/
def Trimmed (s : Text) : Prop :=
  (∀ c ∈ s.head?, isBlank c = false) ∧ ∀ c ∈ s.getLast?, isBlank c = false

theorem head?_dropWhile_isBlank (s : Text) :
    ∀ c ∈ (s.dropWhile isBlank).head?, isBlank c = false := by
  induction s with
  | nil => simp
  | cons c s ih => by_cases h : isBlank c <;> simp_all

theorem trimmed_trim (s : Text) : Trimmed (trim s) := by
  constructor
  · intro c hc
    obtain ⟨t, ht⟩ := trimRight_isPrefix (trimLeft s)
    refine head?_dropWhile_isBlank s c ?_
    rw [show s.dropWhile isBlank = trim s ++ t from ht.symm, List.head?_append]
    simp_all
  · intro c hc
    refine head?_dropWhile_isBlank (trimLeft s).reverse c ?_
    simpa [trim, trimRight, List.getLast?_reverse] using hc

end Text

end TidyTex
