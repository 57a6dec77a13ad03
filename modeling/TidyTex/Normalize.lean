import TidyTex.Answer
import TidyTex.Canonical

/-! Normalizing a text: isolating the answer in it, then bringing its notation to canonical form. -/

namespace TidyTex

/-- The canonical form of the answer in a text, with the warnings of both stages. -/
def normalizeWithReport (o : Options) (s : Text) : Report := (isolate o s).andThen (canonicalize o)

/-- The canonical form of the answer in a text. -/
def normalizeWith (o : Options) (s : Text) : Text := (normalizeWithReport o s).content

/-- The canonical form of the answer in a text, under the default options. -/
def normalize (s : Text) : Text := normalizeWith .default s

/-- The canonical form of the answer in a text that has to be balanced. -/
def tryNormalize (s : Text) : Except Error Text :=
  let r := normalizeWithReport .default s
  if r.isUnbalanced then .error (.unbalanced s) else .ok r.content

end TidyTex
