import DocumentPath.Plan

namespace DocumentPath

/-- Takes the matches of a plan that ends at a wildcard out of the items of an array. Gives the
items that stay and what was taken, in order. -/
def removeFrom (context : Value) : List Level → List Value → List Value × List Value
  | [], items => (items, [])
  | [level], items => items.partition fun item => !level.accepts context item
  | level :: next :: deeper, items =>
    let parts := items.map fun item =>
      if level.accepts context item then
        match Segment.items? level.continuation item with
        | some inner =>
          let (kept, taken) := removeFrom context (next :: deeper) inner
          (Segment.put level.continuation (.array kept) item, taken)
        | none => (item, [])
      else (item, [])
    (parts.map Prod.fst, parts.flatMap Prod.snd)

namespace Plan

/-- Takes out what all matches stand for. Gives what was taken, in order, and the data as it is
then. Only elements of arrays can be taken out, so the path has to end at a wildcard. -/
def remove (plan : Plan) (data context : Value) : Except Error (List Value) × Value :=
  match plan.levels.getLast? with
  | none => (.error (.notIterating plan.path), data)
  | some last =>
    if last.continuation ≠ [] then (.error (.target (.notElement plan.path)), data)
    else
      match Segment.items? plan.start data with
      | none => (.ok [], data)
      | some items =>
        let (kept, taken) := removeFrom context plan.levels items
        (.ok taken, Segment.put plan.start (.array kept) data)

end Plan

end DocumentPath
