import DocumentPath.Value.Basic

namespace DocumentPath.Value

mutual

/-- Equality of kind and content. A NaN differs from itself, the zeros are one number, an integer
never equals a float, and objects are equal as maps. -/
def same : Value → Value → Bool
  | .null, .null => true
  | .boolean a, .boolean b => a == b
  | .float x, .float y => x == y
  | .integer m, .integer n => m == n
  | .string s, .string t => s == t
  | .array xs, .array ys => sameItems xs ys
  | .object ms, .object ns => ms.length == ns.length && sameMembers ms ns
  | _, _ => false

def sameItems : List Value → List Value → Bool
  | [], [] => true
  | x :: xs, y :: ys => same x y && sameItems xs ys
  | _, _ => false

/-- Every member on the left has an equal one of its key on the right. -/
def sameMembers : List (String × Value) → List (String × Value) → Bool
  | [], _ => true
  | (key, v) :: ms, ns =>
    (match ns.lookup key with
      | some w => same v w
      | none => false) && sameMembers ms ns

end

end DocumentPath.Value
