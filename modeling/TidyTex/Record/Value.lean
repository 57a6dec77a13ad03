import TidyTex.Text.Basic

/-! Values of a data format, and records read from them.

    A record is written as an object, one member for each field. It may be read from an object,
    where members that are no fields are passed over, or from a list that holds the fields in order
    and may end early. A field that is missing takes its default, if it has one. -/

namespace TidyTex

/-- A value of a data format with objects and lists. -/
inductive Value where
  | null
  | bool (b : Bool)
  | number (mantissa : Int) (exponent : Nat)
  | text (s : Text)
  | list (items : List Value)
  | object (members : List (Text × Value))
  deriving Inhabited

namespace Value

/-- Where the fields of a record are found: under their keys or at their places. -/
inductive Source where
  | members (ms : List (Text × Value))
  | items (vs : List Value)

/-- The source of a record of `size` fields in a value, if the value can hold such a record. -/
def source? (size : Nat) : Value → Option Source
  | object ms => some (.members ms)
  | list vs => if vs.length ≤ size then some (.items vs) else none
  | _ => none

/-- The value of the field at a place of its record, known by its key in an object. -/
def Source.field? (place : Nat) (key : String) : Source → Option Value
  | members ms => ms.lookup key.toList
  | items vs => vs[place]?

/-- The truth value of a value. -/
def toBool? : Value → Option Bool
  | bool b => some b
  | _ => none

/-- The text of a value. -/
def toText? : Value → Option Text
  | text s => some s
  | _ => none

/-- The texts of a value that is a list of them. -/
def toTexts? : Value → Option (List Text)
  | list vs => vs.mapM toText?
  | _ => none

/-- What a field holds: its default when it is missing, and nothing when it cannot be read. -/
def readOr {α : Type} (read : Value → Option α) (default : α) : Option Value → Option α
  | none => some default
  | some v => read v

/-- A truth value from a field that may be missing. -/
def Source.flag? (place : Nat) (key : String) (default : Bool) (src : Source) : Option Bool :=
  readOr toBool? default (src.field? place key)

end Value

end TidyTex
