import TidyTex.Record.Value
import TidyTex.Report

/-! A summary tells a report to someone who knows neither its warnings nor its types: the text,
    whether it was balanced, and the wording of every warning. The same reader may ask which version
    of the library has written it. -/

namespace TidyTex

/-- The version, as major, minor and patch number. -/
def version : String := "0.1.0"

/-- A report in plain words. -/
structure Summary where
  output : Text
  balanced : Bool
  warnings : List Text
  deriving DecidableEq, Repr

namespace Summary

/-- Reads a summary, of which no field may be missing. -/
def ofValue? (v : Value) : Option Summary := do
  let src ← v.source? 3
  let output ← (← src.field? 0 "output").toText?
  let balanced ← (← src.field? 1 "balanced").toBool?
  let warnings ← (← src.field? 2 "warnings").toTexts?
  return { output, balanced, warnings }

/-- Writes a summary. -/
def toValue (s : Summary) : Value :=
  .object [("output".toList, .text s.output), ("balanced".toList, .bool s.balanced),
    ("warnings".toList, .list (s.warnings.map .text))]

theorem ofValue?_toValue (s : Summary) : ofValue? s.toValue = some s := by
  have h : (s.warnings.map Value.text).mapM Value.toText? = some s.warnings := by
    induction s.warnings with
    | nil => rfl
    | cons w ws ih => simp [Value.toText?, ih]
  show (do let warnings ← (s.warnings.map Value.text).mapM Value.toText?
           return ({ output := s.output, balanced := s.balanced, warnings } : Summary)) = some s
  rw [h]
  rfl

end Summary

end TidyTex
