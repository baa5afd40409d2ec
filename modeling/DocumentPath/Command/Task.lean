import DocumentPath.Json.Reader
import DocumentPath.Template
import DocumentPath.Writing

namespace DocumentPath.Command

/-- Why a command gives no answer. -/
inductive Failure
  | query (error : Error)
  | notJson
  | input (reason : String)
  | noInput
  deriving DecidableEq, Repr

def Failure.message : Failure → String
  | .query error => "Query error: " ++ error.message
  | .notJson => "Invalid JSON: " ++ notJsonMessage
  | .input reason => "IO error: " ++ reason
  | .noInput => "No input provided. Use --input or pipe JSON to stdin."

/-- The texts of the document and of the context; without a text the context is `null`. -/
structure Source where
  input : Option String
  context : Option String
  deriving DecidableEq, Repr

/-- Which matches a query reports, and how. -/
structure Report where
  parents : Bool
  stepwise : Bool
  limit : Option Nat
  deriving DecidableEq, Repr

inductive Task
  | query (path : String) (report : Report)
  | mutate (path value : String)
  | template (template : String)
  | check (path : String)
  deriving DecidableEq, Repr

/-- Reads the text of a document as a value. -/
def readValue (text : String) : Except Failure Value :=
  match Json.read? Json.depthLimit text.toList with
  | some j => .ok j.toValue
  | none => .error .notJson

def renderValue (indented : Bool) (v : Value) : String := (Json.ofValue v).render indented

/-- The document and the context, read in this order. -/
def Source.read (source : Source) : Except Failure (Value × Value) :=
  match source.input with
  | none => .error .noInput
  | some text => do
    let data ← readValue text
    match source.context with
    | none => return (data, .null)
    | some text => return (data, ← readValue text)

/-- A match as an object: its value, its index and the length of the array that holds it. -/
def describe (found : Match) : Value :=
  .object [
    ("index", .integer (Int64.ofNat found.index)),
    ("owner_length", .integer (Int64.ofNat found.owner.length)),
    ("value", found.value)]

def ofCompiled {α : Type} (result : Except Error α) : Except Failure α := result.mapError .query

/-- Answers a query. The document is read before the path. -/
def query (path : String) (report : Report) (source : Source) : Except Failure Value := do
  let (data, context) ← source.read
  if report.stepwise then
    let plan ← ofCompiled (Plan.compileLazy .standard path)
    let cursor := plan.cursor data
    let found := match report.limit with
      | some limit => cursor.take context limit
      | none => cursor.toList context
    return .array (found.map fun m => if report.parents then describe m else m.value)
  else
    let plan ← ofCompiled (Plan.compile .standard path)
    if report.parents then return .array ((plan.allMatches data context).map describe)
    else return plan.run data context

/-- Writes one value into every slot of a path. The path and the value are read before the
document. -/
def mutate (path value : String) (source : Source) : Except Failure Value := do
  let plan ← ofCompiled (Plan.compileWriting .standard path)
  let v ← readValue value
  let (data, context) ← source.read
  ofCompiled (plan.written (Mutator.const v) () data context)

/-- Builds a template. It is read before the document. -/
def template (text : String) (source : Source) : Except Failure Value := do
  let t ← ofCompiled (Template.compile .standard (← readValue text))
  let (data, context) ← source.read
  return t.build data context

/-- Describes the plan of a path. -/
def check (path : String) : Except Failure String := do
  let plan ← ofCompiled (Plan.compile .standard path)
  return "path: " ++ plan.path ++ "\nplan: " ++ plan.text ++ "\nwildcards: " ++
    toString plan.wildcards ++ "\nlazy: " ++ if plan.isIterating then "yes" else "no"

/-- The text that answers a task. -/
def Task.answer (source : Source) (indented : Bool) : Task → Except Failure String
  | .query path report => do return renderValue indented (← Command.query path report source)
  | .mutate path value => do return renderValue indented (← Command.mutate path value source)
  | .template text => do return renderValue indented (← Command.template text source)
  | .check path => Command.check path

end DocumentPath.Command
