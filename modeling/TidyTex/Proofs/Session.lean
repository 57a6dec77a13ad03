import Mathlib.Data.List.DropRight
import TidyTex.Session

/-! What one request leaves for the next.

    A session hands itself from pass to pass and from request to request, and what can be seen of
    that is a list of warnings that grows. Done on a session, a job gives what its report says and
    adds the warnings of the report to those pending (`work_eq`). So a request gives what it would
    give in a session of its own (`step_of_ne_takeWarnings`), and the pending warnings are those that
    the requests since the last taking would have raised there (`run_independent`):

        request     tidy     tidy     take     tidy     show     tidy
        pending     a        a b      none     c        c        c d       -/

namespace TidyTex

/-- The report on a text after a job. -/
def Job.report : Job → Options → Text → Report
  | normalize => normalizeWithReport
  | isolate => TidyTex.isolate
  | canonicalize => TidyTex.canonicalize

namespace Session

open Text

variable (session : Session)

@[simp] theorem options_warn (ws : List Warning) : (session.warn ws).options = session.options := rfl

@[simp] theorem warn_nil : session.warn [] = session := by
  simp [warn]

@[simp] theorem warn_warn (ws vs : List Warning) :
    (session.warn ws).warn vs = session.warn (ws ++ vs) := by
  simp [warn]

/-- A session with the warning of a pass is that with the warnings of the report on the pass. -/
theorem warn_ite (c : Prop) [Decidable c] (w : Warning) :
    (if c then session.warn [w] else session) = session.warn (if c then [w] else []) := by
  split
  · rfl
  · exact session.warn_nil.symm

/-- A report, as a session takes it down. -/
def record (r : Report) : Text × Session := (r.content, session.warn r.warnings)

theorem stripBraces_eq (pass : Pass) (s : Text) :
    session.stripBraces pass s = session.record (stripPass pass s) :=
  Prod.ext rfl (session.warn_ite _ _)

theorem isolate_eq (s : Text) :
    session.isolate s = session.record (TidyTex.isolate session.options s) := by
  unfold isolate TidyTex.isolate
  dsimp only
  split
  · simp only [stripBraces_eq, record, Options.isolateIn, Report.andThen, warn_warn]
  · rfl

theorem promoteExponents_eq (s : Text) :
    session.promoteExponents s = session.record (promotePass s) :=
  Prod.ext rfl (session.warn_ite _ _)

theorem canonicalize_eq (s : Text) :
    session.canonicalize s = session.record (TidyTex.canonicalize session.options s) := by
  simp only [canonicalize, TidyTex.canonicalize, promoteExponents_eq, record, Report.andThen,
    List.append_nil]

theorem normalize_eq (s : Text) :
    session.normalize s = session.record (normalizeWithReport session.options s) := by
  simp only [normalize, normalizeWithReport, isolate_eq, canonicalize_eq, record, Report.andThen,
    options_warn, warn_warn]

theorem work_eq (job : Job) (s : Text) :
    session.work job s = session.record (job.report session.options s) := by
  cases job with
  | normalize => exact session.normalize_eq s
  | isolate => exact session.isolate_eq s
  | canonicalize => exact session.canonicalize_eq s

/-! ### Series of requests -/

/-- The session after a series of requests. -/
def after (session : Session) (requests : List Request) : Session :=
  requests.foldl (fun session r => (session.step r).2) session

/-- The warnings that requests raise, each in a session of its own. -/
def raised (o : Options) (requests : List Request) : List Warning :=
  requests.flatMap fun r => (step ⟨o, []⟩ r).2.pending

/-- The requests behind the last one that took the warnings. -/
def sinceTaken (requests : List Request) : List Request :=
  requests.rtakeWhile (· ≠ .takeWarnings)

@[simp] theorem sinceTaken_takeWarnings (requests : List Request) :
    sinceTaken (requests ++ [.takeWarnings]) = [] :=
  List.rtakeWhile_concat_neg _ _ _ (by decide)

theorem sinceTaken_concat (requests : List Request) {r : Request} (h : r ≠ .takeWarnings) :
    sinceTaken (requests ++ [r]) = sinceTaken requests ++ [r] :=
  List.rtakeWhile_concat_pos _ _ _ (decide_eq_true h)

theorem raised_concat (o : Options) (requests : List Request) (r : Request) :
    raised o (requests ++ [r]) = raised o requests ++ (step ⟨o, []⟩ r).2.pending := by
  rw [raised, raised, List.flatMap_append, List.flatMap_singleton]

theorem after_concat (requests : List Request) (r : Request) :
    session.after (requests ++ [r]) = ((session.after requests).step r).2 := by
  rw [after, after, List.foldl_append, List.foldl_cons, List.foldl_nil]

/-- Pending warnings bear on no request but the one that takes them. -/
theorem step_of_ne_takeWarnings (o : Options) (ws : List Warning) {r : Request}
    (h : r ≠ .takeWarnings) :
    step ⟨o, ws⟩ r = ((step ⟨o, []⟩ r).1, ⟨o, ws ++ (step ⟨o, []⟩ r).2.pending⟩) := by
  cases r with
  | tidy job s => simp only [step, work_eq, record, warn, List.nil_append]
  | takeWarnings => exact absurd rfl h
  | showOptions => simp only [step, List.append_nil]

/-- What is pending after a series was raised by its requests since the last taking. -/
theorem after_eq (o : Options) (requests : List Request) :
    after ⟨o, []⟩ requests = ⟨o, raised o (sinceTaken requests)⟩ := by
  induction requests using List.reverseRecOn with
  | nil => rfl
  | append_singleton requests r ih =>
    rw [after_concat, ih]
    by_cases h : r = .takeWarnings
    · rw [h, sinceTaken_takeWarnings]
      rfl
    · rw [sinceTaken_concat requests h, raised_concat, step_of_ne_takeWarnings o _ h]

/-- Each place in a run shows the reply to its request in the session that the requests before it
    have left. -/
theorem getElem?_run (before rest : List Request) (r : Request) :
    (session.run (before ++ r :: rest))[before.length]? = some ((session.after before).step r) := by
  induction before generalizing session with
  | nil => rfl
  | cons q before ih => exact ih (session.step q).2

/-- Requests do not influence each other. Under the options `o`, a request that is not about the
    warnings gets the reply that it gets in a session of its own. The warnings that are pending, and
    that are handed over and gone when they are taken, are those that the requests since the last
    taking raise in sessions of their own, in the order of these requests. -/
theorem run_independent (o : Options) (before rest : List Request) (r : Request) :
    (run ⟨o, []⟩ (before ++ r :: rest))[before.length]? =
      some (if r = .takeWarnings then .warnings (raised o (sinceTaken before))
          else (step ⟨o, []⟩ r).1,
        ⟨o, raised o (sinceTaken (before ++ [r]))⟩) := by
  rw [getElem?_run, ← after_eq o (before ++ [r]), after_concat, after_eq o before]
  split
  · next h => rw [h]; rfl
  · next h => rw [step_of_ne_takeWarnings o _ h]

end Session

end TidyTex
