import DocumentPath.Members

namespace DocumentPath

/-- A document as it is written. Integers are exact where a `Value` has room for 64 bits only. -/
inductive Json where
  | null
  | boolean (b : Bool)
  | integer (n : Int)
  | float (x : Float)
  | string (s : String)
  | array (items : List Json)
  | object (members : List (String × Json))
  deriving Inhabited

end DocumentPath
