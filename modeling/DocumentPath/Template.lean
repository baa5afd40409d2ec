import DocumentPath.Traversal

namespace DocumentPath

/-- A value in which plans stand for what they will find. -/
inductive Template where
  | leaf (plan : Plan)
  | array (items : List Template)
  | object (members : List (String × Template))

namespace Template

mutual

/-- Reads a template. Its leaves are the texts of paths. -/
def compile (engine : Engine) : Value → Except Error Template
  | .string path => do return .leaf (← Plan.compile engine path)
  | .array items => do return .array (← compileItems engine items)
  | .object members => do return .object (← compileMembers engine members)
  | v => .error (.query (.templateLeaf v.kind))

def compileItems (engine : Engine) : List Value → Except Error (List Template)
  | [] => .ok []
  | v :: vs => do
    let item ← compile engine v
    let items ← compileItems engine vs
    .ok (item :: items)

def compileMembers (engine : Engine) :
    List (String × Value) → Except Error (List (String × Template))
  | [] => .ok []
  | (key, v) :: ms => do
    let member ← compile engine v
    let members ← compileMembers engine ms
    .ok ((key, member) :: members)

end

mutual

/-- The value of the same shape that has in place of each path what it leads to. -/
def build (data context : Value) : Template → Value
  | .leaf plan => plan.run data context
  | .array items => .array (buildItems data context items)
  | .object members => .object (buildMembers data context members)

def buildItems (data context : Value) : List Template → List Value
  | [] => []
  | item :: items => build data context item :: buildItems data context items

def buildMembers (data context : Value) : List (String × Template) → List (String × Value)
  | [] => []
  | (key, member) :: members =>
    (key, build data context member) :: buildMembers data context members

end

end Template

end DocumentPath
