import DocumentPath.Cursor

namespace DocumentPath.Plan

/-- All matches of a plan with wildcards, in order. A plan without wildcards has none. -/
def allMatches (plan : Plan) (data context : Value) : List Match :=
  (plan.cursor data).toList context

/-- The values of all matches, or without wildcards the one value that the path leads to. -/
def run (plan : Plan) (data context : Value) : Value :=
  if plan.isIterating then .array ((plan.allMatches data context).map Match.value)
  else plan.start.valueAt data

end DocumentPath.Plan
