import Mathlib.Data.List.Basic

/-!
# JSON values

The values that the serialiser builds and reads, and the accessors that throw.
Dumping a value to text and parsing it again is left out, and so are floats.
Numbers are read as they are: what the library does with numbers out of the
range of a type, with booleans for numbers and with lists that are no arrays is
left out as well.
-/

namespace SlangNetlist

inductive Json where
  | null
  | bool (value : Bool)
  | number (value : Int)
  | string (value : String)
  | array (items : List Json)
  | object (fields : List (String × Json))

/-- An exception of the JSON library or of the reader. -/
inductive LoadError where
  | typeError
  | outOfRange
  | runtimeError (message : String)
  deriving DecidableEq, Repr

namespace Json

/-- `at` of an object. -/
def field (json : Json) (key : String) : Except LoadError Json :=
  match json with
  | .object fields =>
      match fields.find? fun entry => entry.1 = key with
      | some entry => .ok entry.2
      | none => .error .outOfRange
  | _ => .error .typeError

/-- Whether an object has the key. -/
def contains (json : Json) (key : String) : Bool :=
  match json with
  | .object fields => fields.any fun entry => entry.1 = key
  | _ => false

/-- The items of an array. -/
def items : Json → Except LoadError (List Json)
  | .array items => .ok items
  | _ => .error .typeError

def getString : Json → Except LoadError String
  | .string value => .ok value
  | _ => .error .typeError

def getInt : Json → Except LoadError Int
  | .number value => .ok value
  | _ => .error .typeError

/-- A number read into an unsigned type. -/
def getNat : Json → Except LoadError Nat
  | .number value => .ok value.toNat
  | _ => .error .typeError

def getBool : Json → Except LoadError Bool
  | .bool value => .ok value
  | _ => .error .typeError

/-- The string of a key of an object, or a default where the key is missing. -/
def valueOr (json : Json) (key default : String) : Except LoadError String :=
  if json.contains key then json.field key >>= getString
  else match json with
    | .object _ => .ok default
    | _ => .error .typeError

end Json

end SlangNetlist
