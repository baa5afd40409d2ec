import DocumentPath.Error
import DocumentPath.Filter.Expression
import DocumentPath.Json.Reader
import DocumentPath.Text.Blank

namespace DocumentPath.Expression

/-- The path of a reference: a text, a number, `null` for the empty path, or one of these in an
array of its own. -/
def referencePath : Json → Except Error String
  | .string s => .ok s
  | .integer n => .ok (Json.integer n).compact
  | .float x => .ok (Json.float x).compact
  | .null => .ok ""
  | .array [j] => referencePath j
  | j => .error (.query (.referencePath j.compact))

mutual

/-- Reads an expression written as a document: an object with one key is a reference or a call, and
all else is a literal. -/
def ofJson : Json → Except Error Expression
  | .object [] => .error (.query (.keyCount 0))
  | .object [(key, j)] =>
    if key = "var" then (referencePath j).map .element
    else if key = "context" then (referencePath j).map .context
    else
      match Operator.ofSymbol? key with
      | none => .error (.query (.unknownSymbol key))
      | some op => do
        let operands ← operandsOfJson j
        if op.takes operands.length then .ok (.call op operands)
        else .error (.expression (.operandCount op operands.length))
  | .object members => .error (.query (.keyCount members.length))
  | j => .ok (.literal j.toValue)

/-- An operator with one operand needs no array around it. -/
def operandsOfJson : Json → Except Error (List Expression)
  | .array items => itemsOfJson items
  | j => do return [← ofJson j]

def itemsOfJson : List Json → Except Error (List Expression)
  | [] => .ok []
  | j :: js => do
    let e ← ofJson j
    let es ← itemsOfJson js
    .ok (e :: es)

end

/-- Reads what may follow the wildcard `*`: nothing, or the text of a document. -/
def ofJsonText (text : List Char) : Except Error (Option Expression) :=
  let text := Text.trim text
  if text = [] then .ok none
  else
    match Json.read? Json.depthLimit text with
    | none => .error (.query (.notJson (String.ofList text)))
    | some j => (ofJson j).map some

end DocumentPath.Expression
