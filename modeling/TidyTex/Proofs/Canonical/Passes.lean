import TidyTex.Canonical
import TidyTex.Proofs.Rule

/-! What canonical notation keeps.

    Bringing a text to canonical notation is a row of passes, so it keeps what every pass keeps
    (`KeptByPasses.canonicalize`). The passes that delete are set apart, since they are the ones
    that lose what a text says:

        deleteEnvironments     `\begin` and `\end` with their arguments
        all other passes       styles, spellings, fractions, vectors, exponents, the last period -/

namespace TidyTex

open Text

/-- A text without the commands that go together with their argument. -/
def deleteEnvironments (s : Text) : Text :=
  deletedCommands.foldl (fun t name => removeCommand .anywhere .delete name t) s

/-- What each pass of canonical notation keeps, those apart that delete. -/
structure KeptByPasses (P : Text → Prop) : Prop where
  unwrap : ∀ name ∈ unwrappedCommands, ∀ {s}, P s → P (removeCommand .anywhere .unwrap name s)
  replace : ∀ p ∈ cosmeticDeletions ++ literalReplacements, ∀ {s}, P s → P (p.apply s)
  shorthand : ∀ {s}, P s → P (Fraction.braceShorthand s)
  flatten : ∀ {s}, P s → P (Vector.flattenBars s)
  subscript : ∀ {s}, P s → P (Vector.moveSubscriptOut s)
  bareArgument : ∀ {s}, P s → P (Vector.braceBareArgument s)
  promotion : ∀ {s t}, Fraction.promoteOnce? s = some t → P s → P t
  period : ∀ {s}, P s → P (dropPeriod s)

namespace KeptByPasses

variable {P : Text → Prop} {s : Text}

theorem removeStyling (hP : KeptByPasses P) (h : P (deleteEnvironments s)) :
    P (removeStyling s) := by
  refine List.foldlRecOn unwrappedCommands _ h ?_
  intro t ht name hname
  exact hP.unwrap name hname ht

theorem deleteCosmetics (hP : KeptByPasses P) (h : P s) : P (deleteCosmetics s) := by
  refine Replacement.applyAll_induction ?_ h
  intro p hp t ht
  exact hP.replace p (List.mem_append_left _ hp) ht

theorem unifySpellings (hP : KeptByPasses P) (h : P s) : P (unifySpellings s) := by
  refine Replacement.applyAll_induction ?_ h
  intro p hp t ht
  exact hP.replace p (List.mem_append_right _ hp) ht

theorem promote (hP : KeptByPasses P) (h : P s) : P (Fraction.promote s).1 :=
  repeatAtMost_induction hP.promotion _ h

/-- What every pass keeps, the passes behind the tables keep. -/
theorem arranged (hP : KeptByPasses P) (h : P s) :
    P (dropPeriod (Fraction.promote (arrangeVectors (Fraction.braceShorthand s))).1) := by
  have hvectors := hP.bareArgument (hP.subscript (hP.flatten (hP.shorthand h)))
  exact hP.period (hP.promote hvectors)

/-- What every pass keeps, canonical notation keeps. -/
theorem canonicalize (hP : KeptByPasses P) (o : Options) (h : P (deleteEnvironments (o.fold s))) :
    P (canonicalize o s).content :=
  hP.arranged (hP.unifySpellings (hP.deleteCosmetics (hP.removeStyling h)))

end KeptByPasses

/-- A period at the end is the only character that goes with it. -/
theorem filter_dropPeriod {p : Char → Bool} (h : p '.' = false) (s : Text) :
    (dropPeriod s).filter p = s.filter p := by
  unfold dropPeriod
  split
  · next hlast =>
    obtain ⟨t, rfl⟩ := List.getLast?_eq_some_iff.1 hlast
    rw [List.dropLast_concat, List.filter_append, List.filter_cons_of_neg (by simp [h]),
      List.filter_nil, List.append_nil]
  · rfl

end TidyTex
