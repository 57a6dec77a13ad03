import TidyTex.Command
import TidyTex.Text.Blank
import TidyTex.Text.Rule

/-! Vectors are brought to the forms `\vec{a}` and `\vec{a}_{i}`.

    Three things stand in the way, each with a pass of its own: a `\bar` inside the argument
    (`flattenBars`), a subscript inside it (`moveSubscriptOut`), and an argument without braces
    (`braceBareArgument`). -/

namespace TidyTex.Vector

open Text

/-- The command of a vector with the brace that opens its argument. -/
def opening : Text := command "vec" ++ ['{']

/-- Unwraps every `\bar` in the argument of vector number `n` of a text. -/
def flattenNth (s : Text) (n : Nat) : Text :=
  match cutNth? opening n s with
  | none => s
  | some k =>
    let argument := groupBody 0 k.after
    k.before ++ opening ++ removeCommand .anywhere .unwrap (command "bar") argument.before
      ++ argument.after

/-- Unwraps every `\bar` inside a vector, for as many vectors as `findAll` lists in the text. Each
    is looked up by its number in the text that the ones before it have left. -/
def flattenBars (s : Text) : Text := (List.range (findAll opening s).length).foldl flattenNth s

/-- Whether a character is no brace. -/
def isPlain (c : Char) : Bool := c != '{' && c != '}'

/-- The base and the subscript at the end of a vector argument that holds no other braces, and what
    follows that argument. -/
def subscripted? (s : Text) : Option (Text × Text × Text) :=
  let base := run isPlain s
  match base.before.reverse with
  | '_' :: c :: rest =>
    (after? ['{'] base.after).bind fun t =>
      let sub := run isPlain t
      if sub.before = [] then none
      else (after? ['}', '}'] sub.after).map (((c :: rest).reverse, sub.before, ·))
  | _ => none

theorem append_of_subscripted? {s base sub rest : Text}
    (h : subscripted? s = some (base, sub, rest)) :
    s = base ++ '_' :: braced sub ++ '}' :: rest := by
  unfold subscripted? at h
  simp only at h
  split at h
  · next c r hr =>
    obtain ⟨t, ht, h⟩ := Option.bind_eq_some_iff.1 h
    split at h
    · cases h
    · obtain ⟨u, hu, he⟩ := Option.map_eq_some_iff.1 h
      cases he
      have hbase : (run isPlain s).before = (c :: r).reverse ++ ['_'] := by
        rw [← List.reverse_reverse (run isPlain s).before, hr]
        simp
      have hsub := run_append isPlain t
      rw [after?_eq_some_iff.1 hu] at hsub
      conv => lhs; rw [← run_append isPlain s, hbase, after?_eq_some_iff.1 ht, ← hsub]
      simp [braced]
  · cases h

/-- Moves the subscript at the end of a vector argument behind that argument. -/
def subscriptRule : Rule where
  head := opening
  body s :=
    (subscripted? s).map fun (base, sub, rest) =>
      (command "vec" ++ braced base ++ '_' :: braced sub, rest)
  head_ne_nil := by decide
  body_suffix h := by
    obtain ⟨⟨base, sub, rest⟩, hsub, he⟩ := Option.map_eq_some_iff.1 h
    cases he
    rw [append_of_subscripted? hsub]
    exact (List.suffix_cons '}' _).trans (List.suffix_append _ _)

/-- Moves every subscript at the end of a vector argument behind that argument. -/
def moveSubscriptOut (s : Text) : Text := subscriptRule.pass s

/-- Whether a character can stand in an argument without braces: an ASCII letter, or one of the code
    points from alpha to omega in either case. -/
def isBareLetter (c : Char) : Bool :=
  c.isAlpha || (⟨0x3B1, 0x3C9⟩ : Span).covers c || (⟨0x391, 0x3A9⟩ : Span).covers c

/-- A nonempty run of letters at the head of a text, with `p` put in front of it. -/
def bareName? (p s : Text) : Option Cut :=
  let name := run isBareLetter s
  if name.before = [] then none else some (name.prepend p)

/-- An argument without braces at the head of a text, letters or a command, with the blanks before
    it passed over. -/
def bareArgument? (s : Text) : Option Cut :=
  match trimLeft s with
  | '\\' :: t => bareName? ['\\'] t
  | t => bareName? [] t

theorem bareName?_suffix {p s : Text} {k : Cut} (h : bareName? p s = some k) : k.after <:+ s := by
  unfold bareName? at h
  simp only at h
  split at h <;> cases h
  exact after_run_suffix _ _

theorem bareArgument?_suffix {s : Text} {k : Cut} (h : bareArgument? s = some k) :
    k.after <:+ s := by
  have hs : trimLeft s <:+ s := List.dropWhile_suffix _
  unfold bareArgument? at h
  split at h
  · next t ht =>
    rw [ht] at hs
    exact ((bareName?_suffix h).trans (List.suffix_cons _ _)).trans hs
  · exact (bareName?_suffix h).trans hs

/-- Puts the argument of a vector in braces. -/
def bareArgumentRule : Rule where
  head := command "vec"
  body s := (bareArgument? s).map fun k => (command "vec" ++ braced k.before, k.after)
  head_ne_nil := by decide
  body_suffix h := by
    obtain ⟨k, hk, he⟩ := Option.map_eq_some_iff.1 h
    cases he
    exact bareArgument?_suffix hk

/-- Puts the argument of every vector in braces that is written without them. -/
def braceBareArgument (s : Text) : Text := bareArgumentRule.pass s

end TidyTex.Vector
