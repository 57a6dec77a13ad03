import TidyTex.Brace.Group
import TidyTex.Repeat
import TidyTex.Text.Search

/-! Removing a command from a text, with its braced argument or from around it.

    Occurrences are removed one at a time, and the joined text is searched again from its start,
    until none is left. `length_removeOnce?` says that each removal pays at least the length of the
    name, which bounds their number, and `find?_removeCommand` that none is left in the end. -/

namespace TidyTex

/-- Which occurrences of a name count as the command. -/
inductive Matching where
  /-- Every occurrence, so that `\hat` is also found in `\hatch`. -/
  | anywhere
  /-- Only those that no further letter continues, when the name ends in a letter. -/
  | wholeName
  deriving DecidableEq, Repr

/-- What happens to the braced argument of a removed command. -/
inductive Removal where
  /-- The argument goes with the command. -/
  | delete
  /-- The argument stays in place, without its braces. -/
  | unwrap
  deriving DecidableEq, Repr

namespace Text

/-- Whether a name may end before the text `rest`: a name in letters may not run on in ASCII
    letters. -/
def endsBefore (name rest : Text) : Bool :=
  !(name.getLast?.any Char.isAlpha && rest.head?.any Char.isAlpha)

/-- The cut at the first whole name among the occurrences of `name` that do not overlap, `skip`
    characters being part of the last one. -/
def cutWholeName? (name : Text) : Nat → Text → Option Cut
  | _, [] => if name = [] then some ⟨[], []⟩ else none
  | skip + 1, c :: s => (cutWholeName? name skip s).map (·.prepend [c])
  | 0, c :: s =>
    match after? name (c :: s) with
    | none => (cutWholeName? name 0 s).map (·.prepend [c])
    | some t =>
      if endsBefore name t then some ⟨[], t⟩
      else (cutWholeName? name (name.length - 1) s).map (·.prepend [c])

theorem append_of_cutWholeName? {name s : Text} {skip : Nat} {k : Cut}
    (h : cutWholeName? name skip s = some k) : s = k.before ++ name ++ k.after := by
  fun_induction cutWholeName? name skip s generalizing k with
  | case1 _ he => cases h; simp [he]
  | case2 => cases h
  | case5 c s t ht => cases h; simpa using after?_eq_some_iff.1 ht
  | case3 _ _ _ ih | case4 _ _ _ ih | case6 _ _ _ _ _ ih =>
    obtain ⟨j, hj, rfl⟩ := Option.map_eq_some_iff.1 h
    simpa using ih hj

end Text

open Text

namespace Matching

/-- The cut at the first occurrence of a name. -/
def find? : Matching → Text → Text → Option Cut
  | anywhere, name, s => cutFirst? name s
  | wholeName, name, s => cutWholeName? name 0 s

theorem append_of_find? {m : Matching} {name s : Text} {k : Cut} (h : m.find? name s = some k) :
    s = k.before ++ name ++ k.after := by
  cases m with
  | anywhere => exact append_of_cutFirst? h
  | wholeName => exact append_of_cutWholeName? h

end Matching

namespace Removal

/-- What remains of the text after a removed command. A group right behind it is its argument. -/
def remains : Removal → Text → Text
  | delete, '{' :: s => (groupBody 0 s).after.drop 1
  | unwrap, '{' :: s => (groupBody 0 s).before ++ (groupBody 0 s).after.drop 1
  | _, s => s

theorem length_remains_le (r : Removal) (s : Text) : (r.remains s).length ≤ s.length := by
  unfold remains
  split
  · next s =>
    have hgroup := (List.sublist_append_right _ _).trans (groupBody_sublist 0 s)
    exact Nat.le_succ_of_le hgroup.length_le
  · next s => exact Nat.le_succ_of_le (groupBody_sublist 0 s).length_le
  · exact Nat.le_refl _

end Removal

namespace Text

/-- Removes the first occurrence of a command, if there is one. -/
def removeOnce? (m : Matching) (r : Removal) (name s : Text) : Option Text :=
  (m.find? name s).map fun k => k.before ++ r.remains k.after

/-- Removes every occurrence of a command, those included that a removal brings about. The empty
    name names nothing. -/
def removeCommand (m : Matching) (r : Removal) (name s : Text) : Text :=
  if name = [] then s else (repeatAtMost (removeOnce? m r name) s.length s).1

theorem length_removeOnce? {m : Matching} {r : Removal} {name s t : Text}
    (h : removeOnce? m r name s = some t) : t.length + name.length ≤ s.length := by
  obtain ⟨k, hk, rfl⟩ := Option.map_eq_some_iff.1 h
  have hs := congrArg List.length (Matching.append_of_find? hk)
  have hr := r.length_remains_le k.after
  simp only [List.length_append] at hs ⊢
  omega

/-- Nothing is found any more after a removal. -/
theorem find?_removeCommand {m : Matching} {r : Removal} {name s : Text} (hname : name ≠ []) :
    m.find? name (removeCommand m r name s) = none := by
  have hpos := List.length_pos_iff.2 hname
  have h : removeOnce? m r name (removeCommand m r name s) = none := by
    rw [removeCommand, if_neg hname]
    exact step_eq_none_of_measure List.length
      (fun h => by have := length_removeOnce? h; omega) (Nat.le_refl _)
  exact Option.map_eq_none_iff.1 h

end Text

end TidyTex
