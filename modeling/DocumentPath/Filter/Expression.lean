import DocumentPath.Filter.Operator
import DocumentPath.Json.Printer

namespace DocumentPath

/-- What a filter computes. Paths are relative to the element under test or to the context; the
empty path is that value itself. -/
inductive Expression where
  | literal (v : Value)
  | element (path : String)
  | context (path : String)
  | call (op : Operator) (operands : List Expression)
  deriving Inhabited

namespace Expression

mutual

/-- Whether the context is read anywhere. -/
def usesContext : Expression → Bool
  | .context _ => true
  | .call _ operands => anyUsesContext operands
  | .literal _ | .element _ => false

def anyUsesContext : List Expression → Bool
  | [] => false
  | e :: es => e.usesContext || anyUsesContext es

end

/-- Text of a reference from a root. -/
def referenceText (root path : String) : String := if path = "" then root else root ++ "." ++ path

mutual

/-- Text with every operator in front of its operands, such as `and(gt(@.age,20),$.open)`. -/
def callForm : Expression → String
  | .literal v => (Json.ofValue v).compact
  | .element path => referenceText "@" path
  | .context path => referenceText "$" path
  | .call op operands => op.name ++ "(" ++ callForms operands ++ ")"

def callForms : List Expression → String
  | [] => ""
  | [e] => e.callForm
  | e :: es => e.callForm ++ "," ++ callForms es

end

end Expression

end DocumentPath
