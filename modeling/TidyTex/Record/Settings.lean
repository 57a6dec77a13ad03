import TidyTex.Record.Value
import TidyTex.Settings.Basic

/-! The settings of a reader of expressions as records. -/

namespace TidyTex

/-- Reads a choice of boxes: its keyword, or an object with the keyword as its one key, for null. -/
def Boxes.ofValue? : Value → Option Boxes
  | .text word => ofKeyword? word
  | .object [(word, .null)] => ofKeyword? word
  | _ => none

/-- Writes a choice of boxes. -/
def Boxes.toValue (boxes : Boxes) : Value := .text boxes.keyword.toList

theorem Boxes.ofValue?_toValue (boxes : Boxes) : ofValue? boxes.toValue = some boxes :=
  ofKeyword?_eq_some_iff.2 rfl

namespace Cleanup

/-- Reads cleanup settings; what is missing has its default value. -/
def ofValue? (v : Value) : Option Cleanup := do
  let src ← v.source? 6
  let basicLatex ← src.flag? 0 "basic_latex" true
  let units ← src.flag? 1 "units" false
  let malformedOperators ← src.flag? 2 "malformed_operators" true
  let nits ← src.flag? 3 "nits" true
  let boxed ← Value.readOr Boxes.ofValue? .all (src.field? 4 "boxed")
  let equations ← src.flag? 5 "equations" false
  return { basicLatex, units, malformedOperators, nits, boxed, equations }

/-- Writes cleanup settings. -/
def toValue (c : Cleanup) : Value :=
  .object [("basic_latex".toList, .bool c.basicLatex), ("units".toList, .bool c.units),
    ("malformed_operators".toList, .bool c.malformedOperators), ("nits".toList, .bool c.nits),
    ("boxed".toList, c.boxed.toValue), ("equations".toList, .bool c.equations)]

theorem ofValue?_toValue (c : Cleanup) : ofValue? c.toValue = some c := by
  show (do let boxed ← Boxes.ofValue? c.boxed.toValue
           return ({ c with boxed } : Cleanup)) = some c
  rw [Boxes.ofValue?_toValue]
  rfl

end Cleanup

namespace Interpretation

/-- Reads an interpretation; what is missing has its default value. -/
def ofValue? (v : Value) : Option Interpretation := do
  let src ← v.source? 4
  let mixedFractions ← src.flag? 0 "interpret_as_mixed_fractions" false
  let equationAsAssignment ← src.flag? 1 "interpret_simple_eq_as_assignment" false
  let membershipAsEquation ← src.flag? 2 "interpret_contains_as_eq" true
  let lowercaseSymbols ← src.flag? 3 "lowercase_symbols" false
  return { mixedFractions, equationAsAssignment, membershipAsEquation, lowercaseSymbols }

/-- Writes an interpretation. -/
def toValue (i : Interpretation) : Value :=
  .object [("interpret_as_mixed_fractions".toList, .bool i.mixedFractions),
    ("interpret_simple_eq_as_assignment".toList, .bool i.equationAsAssignment),
    ("interpret_contains_as_eq".toList, .bool i.membershipAsEquation),
    ("lowercase_symbols".toList, .bool i.lowercaseSymbols)]

theorem ofValue?_toValue (i : Interpretation) : ofValue? i.toValue = some i := rfl

end Interpretation

end TidyTex
