import TidyTex.Proofs.Command

/-! Runs to the end.

    Removing a command joins the text on its two sides, and the command may stand there again:

        \h\hatat{x    ──▶    \hat{x    ──▶    x

    So the text is searched anew after each pass, and the passes end only when nothing is found.
    `RunsTo step n a b` says of any step that is repeated in this way that it does come to an end,
    after `n` passes and at `b`. A pass that takes a fixed amount from some size can be made no more
    often than the amount fits into the size (`RunsTo.mul_le`), and removing a command takes its
    bytes. -/

namespace TidyTex

open Text

/-- From `a` a step is made `n` times, which leads to `b`, and from there no step can be made. -/
inductive RunsTo {α : Type _} (step : α → Option α) : Nat → α → α → Prop
  | done {a : α} (h : step a = none) : RunsTo step 0 a a
  | next {n : Nat} {a b c : α} (h : step a = some b) (hrun : RunsTo step n b c) :
      RunsTo step (n + 1) a c

section
variable {α : Type _} {step : α → Option α}

/-- A repetition that ends where the step is undefined has not been stopped by its limit. -/
theorem runsTo_repeatAtMost {limit : Nat} {a : α}
    (h : step (repeatAtMost step limit a).1 = none) :
    RunsTo step (repeatAtMost step limit a).2 a (repeatAtMost step limit a).1 := by
  induction limit generalizing a with
  | zero => exact .done h
  | succ limit ih =>
    cases hs : step a with
    | none =>
      rw [repeatAtMost_of_none hs]
      exact .done hs
    | some b =>
      rw [repeatAtMost_succ_of_some hs] at h ⊢
      exact .next hs (ih h)

/-- Passes that take `cost` each take no more in all than there is. -/
theorem RunsTo.mul_le {cost n : Nat} {a b : α} (size : α → Nat)
    (hcost : ∀ {a b}, step a = some b → size b + cost ≤ size a) (h : RunsTo step n a b) :
    n * cost ≤ size a := by
  induction h with
  | done => simp
  | next hstep _ ih =>
    have hpaid := hcost hstep
    rw [Nat.succ_mul]
    omega

end

namespace Text

/-- Removing a command is a run to the end. -/
theorem exists_runsTo_removeCommand {m : Matching} {r : Removal} {name : Text} (hname : name ≠ [])
    (s : Text) : ∃ n, RunsTo (removeOnce? m r name) n s (removeCommand m r name s) := by
  have hend : removeOnce? m r name (removeCommand m r name s) = none :=
    Option.map_eq_none_iff.2 (find?_removeCommand hname)
  rw [removeCommand, if_neg hname] at hend ⊢
  exact ⟨_, runsTo_repeatAtMost hend⟩

/-- Removing a command comes to an end, after no more passes than the bytes of its name fit into
    those of the text. What is left is a selection of the text in which the command does not occur,
    and if arguments are unwrapped, nothing is lost but braces and characters of the name. -/
theorem removeCommand_terminates (r : Removal) {name : Text} (hname : name ≠ []) (s : Text) :
    (∃ n ≤ byteLength s / byteLength name,
        RunsTo (removeOnce? .anywhere r name) n s (removeCommand .anywhere r name s)) ∧
      (removeCommand .anywhere r name s).Sublist s ∧
      ¬ name <:+: removeCommand .anywhere r name s ∧
      (r = .unwrap → (removeCommand .anywhere r name s).filter (· ∉ '{' :: '}' :: name) =
        s.filter (· ∉ '{' :: '}' :: name)) := by
  refine ⟨?_, removeCommand_sublist, not_isInfix_removeCommand hname, ?_⟩
  · obtain ⟨n, hrun⟩ := exists_runsTo_removeCommand (m := .anywhere) (r := r) hname s
    refine ⟨n, ?_, hrun⟩
    rw [Nat.le_div_iff_mul_le (byteLength_pos hname)]
    exact hrun.mul_le byteLength byteLength_removeOnce?
  · rintro rfl
    refine filter_removeCommand_unwrap (by simp) (by simp) ?_
    rw [List.filter_eq_nil_iff]
    intro c hc
    simp [hc]

/-- The second `\hat` comes about when the first one is removed, and its argument never closes. -/
theorem removeCommand_terminates_hat :
    command "hat" ≠ [] ∧
      (∃ n ≤ 2, RunsTo (removeOnce? .anywhere .unwrap (command "hat")) n
        "\\h\\hatat\x7bx".toList ['x']) ∧
      ['x'].Sublist "\\h\\hatat\x7bx".toList ∧ ¬ command "hat" <:+: ['x'] ∧
      ['x'].filter (· ∉ '{' :: '}' :: command "hat") =
        "\\h\\hatat\x7bx".toList.filter (· ∉ '{' :: '}' :: command "hat") := by
  have hname : command "hat" ≠ [] := by decide
  have hresult :
      removeCommand .anywhere .unwrap (command "hat") "\\h\\hatat\x7bx".toList = ['x'] := by decide
  have h := removeCommand_terminates .unwrap hname "\\h\\hatat\x7bx".toList
  rw [hresult] at h
  obtain ⟨hrun, hsublist, hnone, hkept⟩ := h
  exact ⟨hname, hrun, hsublist, hnone, hkept rfl⟩

end Text

end TidyTex
