import TidyTex.Normalize
import TidyTex.Settings.Boxes

/-! Settings for a reader of expressions, and how they are handed on to it with a canonical text.

    The reader may be anything that takes a `Handoff`; what it refuses is refused by the whole. -/

namespace TidyTex

/-- What a reader cleans up before it reads. -/
structure Cleanup where
  /-- Replace basic commands. -/
  basicLatex : Bool := true
  /-- Remove units. -/
  units : Bool := false
  /-- Mend operators without braces. -/
  malformedOperators : Bool := true
  /-- Mend small faults of form. -/
  nits : Bool := true
  /-- Which boxed groups to use. -/
  boxed : Boxes := .all
  /-- Split equations and approximations. -/
  equations : Bool := false
  deriving DecidableEq, Repr

/-- How a reader takes what can be taken in two ways. -/
structure Interpretation where
  /-- A number before a fraction is added to it. -/
  mixedFractions : Bool := false
  /-- An equation with a symbol on its left assigns to the symbol. -/
  equationAsAssignment : Bool := false
  /-- A membership is an equation. -/
  membershipAsEquation : Bool := true
  /-- Symbols are in lower case. -/
  lowercaseSymbols : Bool := false
  deriving DecidableEq, Repr

/-- What a reader of expressions is given. -/
structure Handoff where
  canonical : Text
  cleanup : Cleanup := {}
  interpretation : Interpretation := {}
  deriving DecidableEq, Repr

/-- Normalizes a text and has it read under default settings. -/
def convertWith {ε α : Type} (read : Handoff → Except ε α) (s : Text) : Except ε α :=
  read { canonical := normalize s }

end TidyTex
