import DocumentPath.Evaluation.Predicate
import DocumentPath.Path.Outline

namespace DocumentPath

/-- A filter with the predicate that an engine made of it. -/
structure Filter where
  expression : Expression
  predicate : Predicate

/-- Whether a filter lets an element pass. One that never reads the context is not given it. -/
def Filter.accepts (filter : Filter) (context element : Value) : Bool :=
  (filter.predicate
    ⟨element, if filter.expression.usesContext then some context else none⟩).isTruthy

/-- One wildcard: which elements pass, and the steps from each of those. -/
structure Level where
  filter : Option Filter
  continuation : Segment

def Level.accepts (level : Level) (context element : Value) : Bool :=
  level.filter.all fun filter => filter.accepts context element

/-- A path made ready for use. -/
structure Plan where
  path : String
  start : Segment
  levels : List Level

namespace Plan

/-- Makes a level ready for use. -/
def levelOf (engine : Engine) : Option Expression × Segment → Except Error Level
  | (none, continuation) => .ok ⟨none, continuation⟩
  | (some e, continuation) => do return ⟨some ⟨e, ← engine.build e⟩, continuation⟩

/-- Reads a path and builds its filters. -/
def compile (engine : Engine) (path : String) : Except Error Plan := do
  let outline ← Outline.ofPath path
  let levels ← outline.levels.mapM (levelOf engine)
  return ⟨path, outline.start, levels⟩

def isIterating (plan : Plan) : Bool := !plan.levels.isEmpty

/-- Number of wildcards. -/
def wildcards (plan : Plan) : Nat := plan.levels.length

/-- A plan whose matches can be asked for one after the other. -/
def compileLazy (engine : Engine) (path : String) : Except Error Plan := do
  let plan ← compile engine path
  if plan.isIterating then return plan else throw (.notIterating plan.path)

/-- A plan that can be written through. The root itself is in no container. -/
def compileWriting (engine : Engine) (path : String) : Except Error Plan := do
  let plan ← compile engine path
  if plan.isIterating ∨ plan.start ≠ [] then return plan else throw (.target (.root plan.path))

def levelText (level : Level) : String :=
  (match level.filter with
    | some filter => "*[" ++ filter.expression.callForm ++ "]"
    | none => "*") ++ level.continuation.text

/-- Text of a plan, such as `.friends*[gt(@.age,20)].name`. -/
def text (plan : Plan) : String := plan.start.text ++ String.join (plan.levels.map levelText)

end Plan

end DocumentPath
