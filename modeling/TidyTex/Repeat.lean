/-! Repeating a step up to a limit.

    A step is a partial function, undefined where there is nothing left to do. `repeatAtMost` runs
    it until then, or until the limit, and counts how often it ran. `repeatAtMost_add` splits a run
    at any point, and `step_eq_none_of_lt` says that a run ending below its limit has finished. -/

namespace TidyTex

/-- Runs a step as often as it is defined, but at most `limit` times, and counts the runs. -/
def repeatAtMost {α : Type _} (step : α → Option α) : Nat → α → α × Nat
  | 0, a => (a, 0)
  | limit + 1, a =>
    match step a with
    | none => (a, 0)
    | some b =>
      let r := repeatAtMost step limit b
      (r.1, r.2 + 1)

section
variable {α : Type _} {step : α → Option α}

@[simp] theorem repeatAtMost_zero (a : α) : repeatAtMost step 0 a = (a, 0) := rfl

theorem repeatAtMost_of_none {a : α} (h : step a = none) (limit : Nat) :
    repeatAtMost step limit a = (a, 0) := by
  cases limit <;> simp [repeatAtMost, h]

theorem repeatAtMost_succ_of_some {a b : α} (h : step a = some b) (limit : Nat) :
    repeatAtMost step (limit + 1) a =
      ((repeatAtMost step limit b).1, (repeatAtMost step limit b).2 + 1) := by
  simp [repeatAtMost, h]

theorem repeatAtMost_le (limit : Nat) (a : α) : (repeatAtMost step limit a).2 ≤ limit := by
  induction limit generalizing a with
  | zero => simp
  | succ limit ih =>
    cases h : step a with
    | none => simp [repeatAtMost_of_none h]
    | some b => simpa [repeatAtMost_succ_of_some h] using ih b

/-- A run that ends below its limit ends where the step is undefined. -/
theorem step_eq_none_of_lt {limit : Nat} {a : α} (h : (repeatAtMost step limit a).2 < limit) :
    step (repeatAtMost step limit a).1 = none := by
  induction limit generalizing a with
  | zero => simp at h
  | succ limit ih =>
    cases hs : step a with
    | none => rw [repeatAtMost_of_none hs]; exact hs
    | some b =>
      rw [repeatAtMost_succ_of_some hs] at h ⊢
      exact ih (Nat.lt_of_succ_lt_succ h)

/-- A run with limit `m + n` is a run with limit `m` followed by one with limit `n`. -/
theorem repeatAtMost_add (m n : Nat) (a : α) :
    repeatAtMost step (m + n) a =
      ((repeatAtMost step n (repeatAtMost step m a).1).1,
        (repeatAtMost step m a).2 + (repeatAtMost step n (repeatAtMost step m a).1).2) := by
  induction m generalizing a with
  | zero => simp
  | succ m ih =>
    cases h : step a with
    | none => simp [repeatAtMost_of_none h]
    | some b =>
      rw [Nat.succ_add, repeatAtMost_succ_of_some h, repeatAtMost_succ_of_some h, ih b]
      simp only [Prod.mk.injEq, true_and]
      omega

/-- Each step pays at least one unit of a measure, so a limit as large as the measure is enough. -/
theorem step_eq_none_of_measure (size : α → Nat) (hlt : ∀ {a b}, step a = some b → size b < size a)
    {limit : Nat} {a : α} (h : size a ≤ limit) : step (repeatAtMost step limit a).1 = none := by
  induction limit generalizing a with
  | zero =>
    cases hs : step a with
    | none => simpa using hs
    | some b => have := hlt hs; omega
  | succ limit ih =>
    cases hs : step a with
    | none => rw [repeatAtMost_of_none hs]; exact hs
    | some b =>
      rw [repeatAtMost_succ_of_some hs]
      exact ih (by have := hlt hs; omega)

/-- Limits that are large enough for a measure that each step pays make no difference. -/
theorem repeatAtMost_of_measure (size : α → Nat) (hlt : ∀ {a b}, step a = some b → size b < size a)
    {limit : Nat} {a : α} (h : size a ≤ limit) :
    repeatAtMost step limit a = repeatAtMost step (size a) a := by
  obtain ⟨n, rfl⟩ := Nat.exists_eq_add_of_le h
  have hdone := step_eq_none_of_measure size hlt (Nat.le_refl (size a))
  rw [repeatAtMost_add, repeatAtMost_of_none hdone, Nat.add_zero]

/-- Where each step takes one from a number and none is left at zero, a run takes as many as it may
    and as there are. -/
theorem repeatAtMost_countdown (size : α → Nat)
    (hsome : ∀ {a b}, step a = some b → size b + 1 = size a)
    (hnone : ∀ {a}, step a = none → size a = 0) (limit : Nat) (a : α) :
    (repeatAtMost step limit a).2 = min limit (size a) ∧
      size (repeatAtMost step limit a).1 = size a - limit := by
  induction limit generalizing a with
  | zero => simp
  | succ limit ih =>
    cases h : step a with
    | none => simp [repeatAtMost_of_none h, hnone h]
    | some b =>
      have hsize := hsome h
      obtain ⟨hcount, hleft⟩ := ih b
      rw [repeatAtMost_succ_of_some h]
      simp only
      omega

/-- Where each step adds the same to a number, a run adds it as often as it has steps. -/
theorem repeatAtMost_countup (size : α → Nat) {gain : Nat}
    (hstep : ∀ {a b}, step a = some b → size b = size a + gain) (limit : Nat) (a : α) :
    size (repeatAtMost step limit a).1 = size a + (repeatAtMost step limit a).2 * gain := by
  induction limit generalizing a with
  | zero => simp
  | succ limit ih =>
    cases h : step a with
    | none => simp [repeatAtMost_of_none h]
    | some b =>
      rw [repeatAtMost_succ_of_some h, ih b, hstep h, Nat.add_mul]
      omega

/-- Where each step takes at least `cost` from a number, a run takes it as often as it has steps. -/
theorem repeatAtMost_cost (size : α → Nat) {cost : Nat}
    (hstep : ∀ {a b}, step a = some b → size b + cost ≤ size a) (limit : Nat) (a : α) :
    size (repeatAtMost step limit a).1 + (repeatAtMost step limit a).2 * cost ≤ size a := by
  induction limit generalizing a with
  | zero => simp
  | succ limit ih =>
    cases h : step a with
    | none => simp [repeatAtMost_of_none h]
    | some b =>
      have hpaid := hstep h
      have hrest := ih b
      rw [repeatAtMost_succ_of_some h]
      simp only [Nat.add_mul]
      omega

/-- What every step keeps, a run keeps. -/
theorem repeatAtMost_induction {P : α → Prop} (hstep : ∀ {a b}, step a = some b → P a → P b)
    (limit : Nat) {a : α} (h : P a) : P (repeatAtMost step limit a).1 := by
  induction limit generalizing a with
  | zero => exact h
  | succ limit ih =>
    cases hs : step a with
    | none => rw [repeatAtMost_of_none hs]; exact h
    | some b => rw [repeatAtMost_succ_of_some hs]; exact ih (hstep hs h)

end

end TidyTex
