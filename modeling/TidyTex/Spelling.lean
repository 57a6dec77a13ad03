import TidyTex.Text.Rule

/-! The tables of spellings.

    Every table is applied entry after entry, each entry to the whole text, so the order counts: a
    later entry can match what an earlier one has written. `_e` has to become `_{e}` before `e_` is
    looked for, and the longer sizing commands have to go before the shorter ones that they begin
    with. -/

namespace TidyTex

/-- Commands that go together with their argument. -/
def deletedCommands : List Text := [command "begin", command "end"]

/-- Commands of style, of which the argument stays. -/
def unwrappedCommands : List Text :=
  [command "text", command "mathbf", command "mathrm", command "pmb", command "hat",
    command "overline", command "boldsymbol"]

/-- A replacement by nothing. -/
def Replacement.deletion (old : Text) (h : old ≠ [] := by decide) : Replacement := ⟨old, [], h⟩

/-- Marks without meaning: spacing, stray punctuation, delimiter sizes and display style. -/
def cosmeticDeletions : List Replacement :=
  [.deletion (command ","), .deletion ['$'], .deletion [','], .deletion ['\x60'],
    .deletion "latex".toList, .deletion (command "left"), .deletion (command "right"),
    .deletion (command "text"), .deletion (command "mathrm"), .deletion (command "Bigr"),
    .deletion (command "Bigl"), .deletion ['\n'], .deletion (command "]"), .deletion (command "["),
    .deletion (command "Big"), .deletion (command "bigl"), .deletion (command "bigr"),
    .deletion (command "biggl"), .deletion (command "biggr"), .deletion (command "displaystyle"),
    .deletion (command "boldsymbol"), .deletion (command "infty")]

/-- A name in a `\bar`, which keeps it from being read as an operator or a constant. -/
def barred (name : String) : Text := command "bar" ++ braced name.toList

/-- An operator name that is written out. -/
def operatorName (name : String) : Text := command "operatorname" ++ braced name.toList

/-- One spelling for another, from operator names over symbols to the conventions on signs. -/
def literalReplacements : List Replacement :=
  [⟨operatorName "asin", command "asin", by decide⟩,
    ⟨operatorName "sech", command "sech", by decide⟩,
    ⟨operatorName "acos", command "acos", by decide⟩,
    ⟨operatorName "sinh", command "sinh", by decide⟩,
    ⟨command "dfrac", command "frac", by decide⟩,
    ⟨command "tfrac", command "frac", by decide⟩,
    ⟨command "Exp", command "exp", by decide⟩,
    ⟨command "times", barred "times", by decide⟩,
    ⟨command "partial", barred "partial", by decide⟩,
    ⟨command "perp", barred "perp", by decide⟩,
    ⟨command "epsilon", command "varepsilon", by decide⟩,
    ⟨command "varOmega", command "Omega", by decide⟩,
    ⟨['I'], barred "I", by decide⟩,
    ⟨['_', 'e'], '_' :: braced ['e'], by decide⟩,
    ⟨['e', '_'], barred "e" ++ ['_'], by decide⟩,
    ⟨['E', '_'], barred "E" ++ ['_'], by decide⟩,
    ⟨command "pm", ['+'], by decide⟩,
    ⟨command "mp", ['-'], by decide⟩,
    ⟨braced ['+'], braced ['p'], by decide⟩,
    ⟨braced ['-'], braced ['m'], by decide⟩,
    ⟨['_', '+'], ['_', 'p'], by decide⟩,
    ⟨['_', '-'], ['_', 'm'], by decide⟩,
    ⟨['±'], ['+'], by decide⟩,
    ⟨['∓'], ['-'], by decide⟩]

namespace Text

/-! The spellings in four parts. Signs are looked for as commands, then in braces and behind `_`,
    and then as characters. -/

/-- The entries that come before those for signs. -/
def respellings : List Replacement := literalReplacements.take 16

/-- The entry for `\pm`. -/
def plusCommand : Replacement := ⟨command "pm", ['+'], by decide⟩

/-- The entry for `\mp`. -/
def minusCommand : Replacement := ⟨command "mp", ['-'], by decide⟩

/-- The entries for signs as commands. -/
def signCommands : List Replacement := [plusCommand, minusCommand]

/-- The entries for a sign in braces or behind `_`. -/
def signMarks : List Replacement :=
  [⟨braced ['+'], braced ['p'], by decide⟩, ⟨braced ['-'], braced ['m'], by decide⟩,
    ⟨['_', '+'], ['_', 'p'], by decide⟩, ⟨['_', '-'], ['_', 'm'], by decide⟩]

/-- The entries for signs as characters. -/
def signSymbols : List Replacement := [⟨['±'], ['+'], by decide⟩, ⟨['∓'], ['-'], by decide⟩]

/-- A text without marks that have no meaning. -/
def deleteCosmetics (s : Text) : Text := Replacement.applyAll cosmeticDeletions s

/-- A text in which literal spellings are brought to one form. -/
def unifySpellings (s : Text) : Text := Replacement.applyAll literalReplacements s

end Text

end TidyTex
