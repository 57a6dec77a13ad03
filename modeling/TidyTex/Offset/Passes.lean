import Mathlib.Data.List.Infix
import TidyTex.Brace.Owner
import TidyTex.Brace.Scope
import TidyTex.Command
import TidyTex.Fraction.Exponent
import TidyTex.Offset.Scan
import TidyTex.Relation
import TidyTex.Vector

/-! The passes that cut a text, by offsets.

    Each does what the pass of the same name does that the library is built of, in the way of a
    machine: scanners and searches give offsets, offsets are added and subtracted, and the text is
    cut between them. -/

namespace TidyTex.Offset

open Text

/-- The offset of the first opening brace that is not escaped. -/
def firstBrace? (s : Text) : Checked (Option Nat) := Scanner.firstBrace.scan 0 false (bytes s)

/-- The offset of the brace that closes the group opened at offset `p`. -/
def groupEnd? (s : Text) (p : Nat) : Checked (Option Nat) :=
  Scanner.group.scan p 0 ((bytes s).drop p)

/-- The scope of the brace at offset `p`. An offset with no successor has none. -/
def scopeAt? (s : Text) (p : Nat) : Checked (Option Scope) :=
  match add p 1 with
  | .error _ => .ok none
  | .ok start =>
    if isBoundary s start then do
      match ← Scanner.scope.scan start (false, 0) ((bytes s).drop start) with
      | none => return none
      | some stop => return some ⟨p, stop, ← slice s start stop⟩
    else .ok none

/-! ### Owners -/

/-- The characters of a text with their offsets, for a text that itself starts at offset `p`. -/
def charOffsets (p : Nat) : Text → List (Nat × Char)
  | [] => []
  | c :: s => (p, c) :: charOffsets (p + c.utf8Size) s

/-- Where the walk to the left that looks for an owner has come to an end. -/
inductive Halt where
  | script (c : Char)
  | char (p : Nat) (c : Char)
  deriving DecidableEq, Repr

/-- Walks over spaces, tabs, opening brackets and bracket groups; `inside` tells that a closing
    bracket has been met and its opening one has not. -/
def walk : Bool → List (Nat × Char) → Option Halt
  | _, [] => none
  | true, (_, c) :: rest => walk (c != '[') rest
  | false, (p, c) :: rest =>
    if c = '^' ∨ c = '_' then some (.script c)
    else if c = ' ' ∨ c = '\t' ∨ c = '[' then walk false rest
    else if c = ']' then walk true rest
    else some (.char p c)

/-- The spelling of the owner of a group that opens right after `head`. -/
def owner? (head : Text) : Checked (Option Text) :=
  match walk false (charOffsets 0 head).reverse with
  | none => .ok none
  | some (.script c) => .ok (some [c])
  | some (.char last c) =>
    if c = '\\' then .ok none
    else do
      let letters := (charOffsets 0 (← slice head 0 last)).reverse.takeWhile (isAlphabetic ·.2)
      let start := (letters.getLast?.map Prod.fst).getD last
      if (← slice head 0 start).getLast? = some '\\' then
        return some (← slice head (← sub start 1) (← add last c.utf8Size))
      else return none

/-- The spelling of the owner of the group that opens at offset `p`. -/
def ownerAt? (s : Text) (p : Nat) : Checked (Option Text) :=
  match cutAt? s p with
  | none => .ok none
  | some k => owner? k.before

/-! ### Braces, commands and occurrences -/

/-- The content of the first group, when that group is redundant. -/
def stripOuter? (s : Text) : Checked (Option Text) := do
  match ← firstBrace? s with
  | none => return none
  | some p =>
    if (← ownerAt? s p).isSome then return none
    else
      match ← scopeAt? s p with
      | none => return none
      | some scope =>
        if '}' ∈ (← sliceFrom s (← add scope.closing 1)) then return none
        else return some scope.content

/-- Removes the text from offset `p` on together with the group at offset `opening`, or with its
    braces. A group that is never closed runs to the end of the text. -/
def removeToGroup (r : Removal) (s : Text) (p opening : Nat) : Checked Text := do
  let closing := (← groupEnd? s opening).getD (byteLength s)
  let tail := (from? s (← add closing 1)).getD []
  match r with
  | .delete => return (← slice s 0 p) ++ tail
  | .unwrap => return (← slice s 0 p) ++ (← slice s (← add opening 1) closing) ++ tail

/-- Removes the command of `size` bytes at offset `p`. Its name is cut out for the log. -/
def removeAt (r : Removal) (s : Text) (p size : Nat) : Checked Text := do
  let stop ← add p size
  let _name ← slice s p stop
  if (bytes s)[stop]? = some 0x7B then removeToGroup r s p stop
  else return (← slice s 0 p) ++ (← sliceFrom s stop)

/-- Removes occurrences of a command until none is left, at most `limit` of them. -/
def removeAtMost (r : Removal) (name : Text) : Nat → Text → Checked Text
  | 0, s => .ok s
  | limit + 1, s =>
    match find? name s with
    | none => .ok s
    | some p => do removeAtMost r name limit (← removeAt r s p (byteLength name))

/-- Removes every occurrence of a command. -/
def removeCommand (r : Removal) (name s : Text) : Checked Text :=
  if name = [] then .ok s else removeAtMost r name s.length s

/-- The offsets of occurrences of `needle` from offset `start` on, at most `limit` of them. -/
def findAllFrom (needle s : Text) : Nat → Nat → Checked (List Nat)
  | 0, _ => .ok []
  | limit + 1, start =>
    match (from? s start).bind (find? needle) with
    | none => .ok []
    | some p => do
      let p ← add start p
      let size := ((← sliceFrom s p).head?.map Char.utf8Size).getD 1
      return p :: (← findAllFrom needle s limit (← add p size))

/-- The offsets of the first hundred occurrences of `needle`; none for the empty needle. -/
def findAll (needle s : Text) : Checked (List Nat) :=
  if needle = [] then .ok [] else findAllFrom needle s maxOccurrences 0

/-! ### Relations, exponents and vectors -/

/-- The offset behind the last occurrence of a sign, and behind the letters that continue it when it
    is a command. -/
def behindLast? (sign : Sign) (s : Text) : Checked (Option Nat) :=
  match findLast? sign.spelling s with
  | none => .ok none
  | some p => do
    let stop ← add p (byteLength sign.spelling)
    match sign with
    | .symbol _ => return some stop
    | .command _ =>
      let letters := (bytes (← sliceFrom s stop)).takeWhile fun b => (Char.ofUInt8 b).isAlpha
      return some (← add stop letters.length)

/-- The trimmed text behind the first of the signs that occurs, or the whole text trimmed. -/
def behindFirst (s : Text) : List Sign → Checked Text
  | [] => .ok (trim s)
  | sign :: signs => do
    match ← behindLast? sign s with
    | none => behindFirst s signs
    | some stop => return trim (← sliceFrom s stop)

/-- The trimmed text behind the last relation, or the whole text trimmed when it has none. -/
def rightHandSide (s : Text) : Checked Text := behindFirst s relationSigns

/-- Puts the first fraction that follows a superscript mark in braces. -/
def promoteOnce? (s : Text) : Checked (Option Text) :=
  match find? Fraction.exponentHead s with
  | none => .ok none
  | some p => do
    let start ← add p 1
    let stop := (← Scanner.fraction.scan start (0, 0) ((bytes s).drop start)).getD (byteLength s)
    return some ((← slice s 0 start) ++ braced (← slice s start stop) ++ (← sliceFrom s stop))

/-- Unwraps every `\bar` in the argument of the vector at offset `p`. -/
def flattenAt (s : Text) (p : Nat) : Checked Text := do
  let opening ← sub (← add p (byteLength Vector.opening)) 1
  let closing := (← groupEnd? s opening).getD (byteLength s)
  let inner ← slice s (← add opening 1) closing
  if command "bar" <:+: inner then
    let flattened ← removeCommand .unwrap (command "bar") inner
    return (← slice s 0 (← add opening 1)) ++ flattened ++ (← sliceFrom s closing)
  else return s

/-- Unwraps every `\bar` in the arguments of the vectors with the given numbers, and stops at a
    number that no vector has. -/
def flattenEach (s : Text) : List Nat → Checked Text
  | [] => .ok s
  | n :: ns => do
    match (← findAll Vector.opening s)[n]? with
    | none => return s
    | some p => flattenEach (← flattenAt s p) ns

/-- Unwraps every `\bar` inside a vector. -/
def flattenBars (s : Text) : Checked Text := do
  flattenEach s (List.range (← findAll Vector.opening s).length)

end TidyTex.Offset
