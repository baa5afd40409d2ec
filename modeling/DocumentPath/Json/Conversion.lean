import DocumentPath.Json.Basic
import DocumentPath.Value.Basic

namespace DocumentPath

mutual

/-- The value of a document. An integer that has no room in 64 bits becomes the nearest double. -/
def Json.toValue : Json → Value
  | .null => .null
  | .boolean b => .boolean b
  | .integer n =>
    match Word.ofInt? n with
    | some k => .integer k
    | none => .float (Binary64.ofInt n)
  | .float x => .float x
  | .string s => .string s
  | .array items => .array (Json.toValues items)
  | .object members => .object (Json.toMembers members)

def Json.toValues : List Json → List Value
  | [] => []
  | j :: js => j.toValue :: Json.toValues js

def Json.toMembers : List (String × Json) → List (String × Value)
  | [] => []
  | (key, j) :: ms => (key, j.toValue) :: Json.toMembers ms

end

mutual

/-- The document for a value. There is no text for an infinity or a NaN, so they become `null`. -/
def Json.ofValue : Value → Json
  | .null => .null
  | .boolean b => .boolean b
  | .integer n => .integer n.toInt
  | .float x => if x.isFinite then .float x else .null
  | .string s => .string s
  | .array items => .array (Json.ofValues items)
  | .object members => .object (Json.ofMembers members)

def Json.ofValues : List Value → List Json
  | [] => []
  | v :: vs => Json.ofValue v :: Json.ofValues vs

def Json.ofMembers : List (String × Value) → List (String × Json)
  | [] => []
  | (key, v) :: ms => (key, Json.ofValue v) :: Json.ofMembers ms

end

end DocumentPath
