import Mathlib.Algebra.Group.Int.Defs
import Mathlib.Algebra.Group.Nat.Defs
import TidyTex.Text.Search

/-! Offsets as a machine counts them.

    The searches of the library return the parts of a text. A machine keeps the text in one piece,
    byte after byte, and a place in it is an offset, a word of 64 bits. Counting with offsets and
    cutting between two of them can each go wrong, and then the machine stops:

        overflow     a sum or a difference is no word
        range        a range ends before it starts, or outside the text, or inside a character

    A `Checked` computation gives its result or the first fault on the way. `slice_eq_ok_iff` says
    what is cut out, and `exists_slice_eq_ok_iff` which ranges can be. -/

namespace TidyTex

/-- What stops a machine. -/
inductive Fault where
  | overflow
  | range
  deriving DecidableEq, Repr

/-- A computation that is stopped by a fault. -/
abbrev Checked (α : Type) : Type := Except Fault α

namespace Offset

open Text

/-- An unsigned number that has to be a word. -/
def word (n : Nat) : Checked Nat := if n < 2 ^ 64 then .ok n else .error .overflow

/-- A signed number that has to be a word. -/
def signed (n : Int) : Checked Int :=
  if -2 ^ 63 ≤ n ∧ n < 2 ^ 63 then .ok n else .error .overflow

/-- The sum of two words. -/
def add (a b : Nat) : Checked Nat := word (a + b)

/-- The difference of two words. -/
def sub (a b : Nat) : Checked Nat := if b ≤ a then .ok (a - b) else .error .overflow

/-- The most bytes that a text can have. No object is larger than half of what can be addressed. -/
def maxBytes : Nat := 2 ^ 63 - 1

/-- The bytes of a text in UTF-8. -/
def bytes (s : Text) : List UInt8 := s.flatMap String.utf8EncodeChar

/-- Whether a text can be cut at an offset. -/
def isBoundary (s : Text) (p : Nat) : Bool := (cutAt? s p).isSome

/-- The text from offset `p` up to offset `q`. -/
def slice (s : Text) (p q : Nat) : Checked Text :=
  match (cutAt? s q).bind fun k => cutAt? k.before p with
  | some k => .ok k.after
  | none => .error .range

/-- The text from offset `p` on. -/
def sliceFrom (s : Text) (p : Nat) : Checked Text := slice s p (byteLength s)

/-- The text from offset `p` on, if it can be cut there. -/
def from? (s : Text) (p : Nat) : Option Text := (cutAt? s p).map Cut.after

/-- The offset of the first occurrence of `needle`. -/
def find? (needle s : Text) : Option Nat := (cutFirst? needle s).map fun k => byteLength k.before

/-- The offset of the last occurrence of `needle`. -/
def findLast? (needle s : Text) : Option Nat := (cutLast? needle s).map fun k => byteLength k.before

end Offset

end TidyTex
