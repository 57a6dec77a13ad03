import TidyTex.Options
import TidyTex.Record.Value

/-! Options as a record. Its keys come in two spellings, with underscores and in camel case.
    Whatever the spelling, what was written can be read back (`ofValue?_toValue`). -/

namespace TidyTex.Options

/-- The keys under which options are written. -/
structure Keys where
  extractBoxed : String
  stripNonAscii : String
  foldSymbols : String
  deriving DecidableEq, Repr

/-- Keys with underscores. -/
def Keys.snake : Keys := ⟨"extract_boxed", "strip_non_ascii", "fold_unicode_symbols"⟩

/-- Keys in camel case. -/
def Keys.camel : Keys := ⟨"extractBoxed", "stripNonAscii", "foldUnicodeSymbols"⟩

/-- Reads options; what is missing has its default value. -/
def ofValue? (keys : Keys) (v : Value) : Option Options := do
  let src ← v.source? 3
  let extractBoxed ← src.flag? 0 keys.extractBoxed true
  let stripNonAscii ← src.flag? 1 keys.stripNonAscii false
  let foldSymbols ← src.flag? 2 keys.foldSymbols false
  return { extractBoxed, stripNonAscii, foldSymbols }

/-- Writes options. -/
def toValue (keys : Keys) (o : Options) : Value :=
  .object [(keys.extractBoxed.toList, .bool o.extractBoxed),
    (keys.stripNonAscii.toList, .bool o.stripNonAscii),
    (keys.foldSymbols.toList, .bool o.foldSymbols)]

theorem ofValue?_toValue_snake (o : Options) : ofValue? .snake (o.toValue .snake) = some o := rfl

theorem ofValue?_toValue_camel (o : Options) : ofValue? .camel (o.toValue .camel) = some o := rfl

end TidyTex.Options
