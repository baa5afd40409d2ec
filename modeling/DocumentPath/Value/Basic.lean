import DocumentPath.Binary64
import DocumentPath.Word

namespace DocumentPath

/-- What a document holds. Integers and other numbers are kept apart, and the members of an object
stand in the order of their keys, each key once. -/
inductive Value where
  | null
  | boolean (b : Bool)
  | float (x : Float)
  | integer (n : Int64)
  | string (s : String)
  | array (items : List Value)
  | object (members : List (String × Value))
  deriving Inhabited

namespace Value

inductive Kind
  | null
  | boolean
  | integer
  | float
  | string
  | array
  | object
  deriving DecidableEq, Repr

def Kind.name : Kind → String
  | .null => "null"
  | .boolean => "boolean"
  | .integer => "integer"
  | .float => "float"
  | .string => "string"
  | .array => "array"
  | .object => "object"

def kind : Value → Kind
  | .null => .null
  | .boolean _ => .boolean
  | .integer _ => .integer
  | .float _ => .float
  | .string _ => .string
  | .array _ => .array
  | .object _ => .object

/-- What a filter accepts: all but `null`, `false`, zero, NaN, `""` and `[]`. -/
def isTruthy : Value → Bool
  | .null => false
  | .boolean b => b
  | .float x => x != 0.0 && !x.isNaN
  | .integer n => n != 0
  | .string s => s != ""
  | .array items => !items.isEmpty
  | .object _ => true

def isNumber : Value → Bool
  | .integer _ | .float _ => true
  | _ => false

/-- A number as the nearest double. -/
def toFloat? : Value → Option Float
  | .integer n => some (Binary64.ofWord n)
  | .float x => some x
  | _ => none

/-- A whole number as an integer; one that has no room becomes the nearest that has. -/
def toWord? : Value → Option Int64
  | .integer n => some n
  | .float x => (Binary64.whole? x).map Word.nearest
  | _ => none

def string? : Value → Option String
  | .string s => some s
  | _ => none

def items? : Value → Option (List Value)
  | .array items => some items
  | _ => none

theorem items?_eq_some_iff {v : Value} {items : List Value} :
    v.items? = some items ↔ v = .array items := by
  cases v <;> simp [items?]

end Value

end DocumentPath
