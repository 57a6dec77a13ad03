import TidyTex.Fraction.Exponent

/-! What tidying a text gives: the new text, and warnings about what was skipped or left unfinished.

    Stages are run one after the other with `Report.andThen`, which keeps the warnings of both in
    order. A text that a caller wants refused when it is unbalanced gives an `Error` instead. -/

namespace TidyTex

/-- A pass that stops at a limit. -/
inductive Pass where
  | leadingBraces
  | trailingBraces
  | exponentFractions
  deriving DecidableEq, Repr

namespace Pass

/-- How often a pass is run at most. -/
def limit : Pass → Nat
  | leadingBraces => 10
  | trailingBraces => 19
  | exponentFractions => Fraction.maxPromotions

/-- What a pass is called in a warning. -/
def label : Pass → String
  | leadingBraces => "leading brace stripping"
  | trailingBraces => "trailing brace stripping"
  | exponentFractions => "exponent fraction promotion"

end Pass

/-- What went less than well with a text that was tidied all the same. -/
inductive Warning where
  /-- The delimiters do not nest, and the answer was not isolated. -/
  | unbalanced
  /-- A pass has run as often as it may. -/
  | limitReached (pass : Pass)
  deriving DecidableEq, Repr

/-- The wording of a warning. -/
def Warning.message : Warning → String
  | unbalanced => "Warning: unbalanced delimiters, structural cleanup skipped"
  | limitReached pass =>
    "Warning: " ++ pass.label ++ " stopped after " ++ toString pass.limit ++ " passes"

/-- A text and the warnings raised on the way to it. -/
structure Report where
  content : Text
  warnings : List Warning := []
  deriving DecidableEq, Repr

namespace Report

/-- Whether any warning was raised. -/
def hasWarnings (r : Report) : Bool := !r.warnings.isEmpty

/-- Whether the text was found unbalanced. -/
def isUnbalanced (r : Report) : Bool := r.warnings.contains .unbalanced

/-- Runs a further stage on the content, its warnings behind those already raised. -/
def andThen (r : Report) (stage : Text → Report) : Report :=
  ⟨(stage r.content).content, r.warnings ++ (stage r.content).warnings⟩

@[simp] theorem content_andThen (r : Report) (stage : Text → Report) :
    (r.andThen stage).content = (stage r.content).content := rfl

@[simp] theorem warnings_andThen (r : Report) (stage : Text → Report) :
    (r.andThen stage).warnings = r.warnings ++ (stage r.content).warnings := rfl

theorem isUnbalanced_eq_true_iff {r : Report} :
    r.isUnbalanced = true ↔ .unbalanced ∈ r.warnings := by
  rw [isUnbalanced, List.contains_iff_mem]

end Report

/-- Why a request was refused. -/
inductive Error where
  /-- The delimiters of the input do not nest. -/
  | unbalanced (input : Text)
  /-- The input is nothing that could be read. -/
  | invalidInput (reason : Text)
  deriving DecidableEq, Repr

/-- The wording of an error. -/
def Error.message : Error → String
  | unbalanced input => "Unbalanced delimiters in '" ++ String.ofList input ++ "'"
  | invalidInput reason => "Invalid input: " ++ String.ofList reason

end TidyTex
