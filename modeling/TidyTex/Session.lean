import TidyTex.Normalize

/-! A session serves a series of requests under the same options and keeps the warnings that they
    raise until a request takes them.

    The work is done on the session itself: each pass that warns adds its warning to those that are
    pending, and the work goes on with the session that it leaves. -/

namespace TidyTex

/-- The work that can be done on a text. -/
inductive Job where
  | normalize
  | isolate
  | canonicalize
  deriving DecidableEq, Repr

/-- What a session can be asked. -/
inductive Request where
  | tidy (job : Job) (s : Text)
  | takeWarnings
  | showOptions
  deriving DecidableEq, Repr

/-- What a session replies. -/
inductive Reply where
  | text (s : Text)
  | warnings (ws : List Warning)
  | options (o : Options)
  deriving DecidableEq, Repr

/-- Options, and the warnings that nobody has taken yet. -/
structure Session where
  options : Options := .default
  pending : List Warning := []
  deriving DecidableEq, Repr

namespace Session

open Text

/-- Adds warnings behind those that are pending. -/
def warn (session : Session) (ws : List Warning) : Session :=
  { session with pending := session.pending ++ ws }

/-- Strips outer braces up to the limit of a pass. -/
def stripBraces (session : Session) (pass : Pass) (s : Text) : Text × Session :=
  let r := stripOuters pass.limit s
  (r.1, if r.2 = pass.limit ∧ (stripOuter? r.1).isSome then session.warn [.limitReached pass]
    else session)

/-- Isolates the answer in a text. -/
def isolate (session : Session) (s : Text) : Text × Session :=
  let source := session.options.source s
  if isBalanced source then
    let (t, session) := session.stripBraces .leadingBraces (session.options.unbox source)
    session.stripBraces .trailingBraces (rightHandSide (beforeQuad t))
  else (s, session.warn [.unbalanced])

/-- Puts fractions in exponents in braces. -/
def promoteExponents (session : Session) (s : Text) : Text × Session :=
  let r := Fraction.promote s
  (r.1, if r.2 = Pass.exponentFractions.limit then session.warn [.limitReached .exponentFractions]
    else session)

/-- Brings a text to canonical notation. -/
def canonicalize (session : Session) (s : Text) : Text × Session :=
  let spelled := unifySpellings (deleteCosmetics (removeStyling (session.options.fold s)))
  let (t, session) := session.promoteExponents (arrangeVectors (Fraction.braceShorthand spelled))
  (dropPeriod t, session)

/-- Brings the answer in a text to canonical form. -/
def normalize (session : Session) (s : Text) : Text × Session :=
  let (t, session) := session.isolate s
  session.canonicalize t

/-- Does a job on a text. -/
def work (session : Session) : Job → Text → Text × Session
  | .normalize => session.normalize
  | .isolate => session.isolate
  | .canonicalize => session.canonicalize

/-- The reply to a request, and the session after it. -/
def step (session : Session) : Request → Reply × Session
  | .tidy job s =>
    let (t, session) := session.work job s
    (.text t, session)
  | .takeWarnings => (.warnings session.pending, { session with pending := [] })
  | .showOptions => (.options session.options, session)

/-- The replies to a series of requests, each with the session after it. -/
def run (session : Session) : List Request → List (Reply × Session)
  | [] => []
  | r :: rs => session.step r :: (session.step r).2.run rs

end Session

end TidyTex
