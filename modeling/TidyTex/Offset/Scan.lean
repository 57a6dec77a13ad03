import TidyTex.Offset.Checked

/-! Reading a text byte by byte.

    A scanner looks for three bytes, those of a backslash and of the two braces, and passes over all
    others. That is sound, because no byte of a character beyond ASCII is one of the three. To pass
    over a character of many bytes must be the same as to pass over one of one byte, so a scanner
    that has passed over one byte may not change at the next (`idle_idle`).

    What the scanners look for is counted in words, so reading on can fail, and so can the
    offset. -/

namespace TidyTex.Offset

/-- What a scanner tells apart. -/
inductive Mark where
  | backslash
  | opening
  | closing
  | other
  deriving DecidableEq, Repr

/-- The mark with a code, of a byte or of a character. -/
def Mark.ofCode : Nat → Mark
  | 0x5C => backslash
  | 0x7B => opening
  | 0x7D => closing
  | _ => other

/-- A machine that reads marks until it stops. -/
structure Scanner (σ : Type) where
  /-- The state after a mark, or none to stop at it. -/
  step : σ → Mark → Checked (Option σ)
  /-- The state after what is no mark. -/
  idle : σ → σ
  step_other : ∀ st, step st .other = .ok (some (idle st))
  idle_idle : ∀ st, idle (idle st) = idle st

namespace Scanner

variable {σ : Type}

/-- The offset at which the scanner stops, when it reads bytes from offset `p` on. -/
def scan (m : Scanner σ) (p : Nat) (st : σ) : List UInt8 → Checked (Option Nat)
  | [] => .ok none
  | b :: bs => do
    match ← m.step st (.ofCode b.toNat) with
    | none => return some p
    | some st => m.scan (← add p 1) st bs

/-- Stops at the first opening brace that is not escaped. The state says whether the next byte is
    escaped. -/
def firstBrace : Scanner Bool where
  step
    | false, .backslash => .ok (some true)
    | false, .opening => .ok none
    | _, _ => .ok (some false)
  idle _ := false
  step_other st := by cases st <;> rfl
  idle_idle _ := rfl

/-- Stops at the brace that closes a scope. The state says whether the next byte is escaped, and how
    many groups are open. -/
def scope : Scanner (Bool × Nat) where
  step
    | (true, depth), _ => .ok (some (false, depth))
    | (false, depth), .backslash => .ok (some (true, depth))
    | (false, depth), .opening => do return some (false, ← add depth 1)
    | (false, 0), .closing => .ok none
    | (false, depth), .closing => do return some (false, ← sub depth 1)
    | (false, depth), .other => .ok (some (false, depth))
  idle st := (false, st.2)
  step_other st := by rcases st with ⟨_ | _, _⟩ <;> rfl
  idle_idle _ := rfl

/-- Stops at the brace that closes a group. The state is how deep the reading is. -/
def group : Scanner Int where
  step
    | depth, .opening => do return some (← signed (depth + 1))
    | depth, .closing => do
      let depth ← signed (depth - 1)
      return if depth = 0 then none else some depth
    | depth, _ => .ok (some depth)
  idle := id
  step_other _ := rfl
  idle_idle _ := rfl

/-- Stops at the brace that closes the second group. The state is how deep the reading is and how
    many groups have been closed. -/
def fraction : Scanner (Int × Nat) where
  step
    | (depth, groups), .opening => do return some (← signed (depth + 1), groups)
    | (depth, groups), .closing => do
      let depth ← signed (depth - 1)
      if depth = 0 then
        let groups ← add groups 1
        return if groups = 2 then none else some (depth, groups)
      else return some (depth, groups)
    | st, _ => .ok (some st)
  idle := id
  step_other _ := rfl
  idle_idle _ := rfl

end Scanner

end TidyTex.Offset
