import TidyTex.Symbol

/-! The options of tidying: what is done to a text beyond what is always done. -/

namespace TidyTex

/-- The choices that a caller has. -/
structure Options where
  /-- Unwrap `\boxed` before any braces are stripped. -/
  extractBoxed : Bool := true
  /-- Drop all characters beyond ASCII before anything else. -/
  stripNonAscii : Bool := false
  /-- Write Unicode operators as signs of LaTeX. -/
  foldSymbols : Bool := false
  deriving DecidableEq, Repr

namespace Options

/-- The options of a caller who states none. -/
def default : Options := {}

/-- Leaves Unicode operators as they are written. -/
def faithful : Options := {}

/-- Reads Unicode operators as signs, so that relations among them are seen. -/
def unicodeAware : Options := { foldSymbols := true }

/-- Reads the ASCII part of a text only. -/
def asciiOnly : Options := { stripNonAscii := true }

/-- The part of a text that the options admit. -/
def strip (o : Options) (s : Text) : Text := if o.stripNonAscii then Text.stripNonAscii s else s

/-- A text with its symbols folded, if the options ask for it. -/
def fold (o : Options) (s : Text) : Text := if o.foldSymbols then Text.foldSymbols s else s

end Options

end TidyTex
