import DocumentPath.Error
import DocumentPath.Evaluation.Application
import DocumentPath.Filter.Expression
import DocumentPath.Path.Segment

namespace DocumentPath

/-- What a filter is asked about: the element under test and, where it matters, the context. -/
structure Subject where
  element : Value
  context : Option Value

/-- A filter in use. Its answer counts by truthiness. -/
abbrev Predicate := Subject → Value

namespace Expression

/-- The value that a dotted path leads to, `null` where it leads nowhere. -/
def lookUp (path : String) (origin : Option Value) : Value :=
  ((origin.bind (Segment.ofDotted path).find?).map Value.Found.value).getD .null

/-- The value of the first operand that decides, or else of the last; operands behind it are not
looked at. -/
def firstDeciding (decides : Value → Bool) (subject : Subject) : List Predicate → Value
  | [] => .null
  | [p] => p subject
  | p :: ps =>
    let v := p subject
    if decides v then v else firstDeciding decides subject ps

mutual

/-- The predicate of an expression. `and` and `or` stop at the operand that decides. -/
def predicate : Expression → Predicate
  | .literal v => fun _ => v
  | .element path => fun subject => lookUp path (some subject.element)
  | .context path => fun subject => lookUp path subject.context
  | .call .and operands =>
    let ps := predicates operands
    fun subject => firstDeciding (fun v => !v.isTruthy) subject ps
  | .call .or operands =>
    let ps := predicates operands
    fun subject => firstDeciding Value.isTruthy subject ps
  | .call op operands =>
    let ps := predicates operands
    fun subject => op.apply (ps.map (· subject))

def predicates : List Expression → List Predicate
  | [] => []
  | e :: es => e.predicate :: predicates es

end

end Expression

/-- Turns the expressions of filters into predicates. An engine may refuse an expression. -/
structure Engine where
  build : Expression → Except Error Predicate

/-- The engine that takes every expression at its word. -/
def Engine.standard : Engine := ⟨fun e => .ok e.predicate⟩

end DocumentPath
