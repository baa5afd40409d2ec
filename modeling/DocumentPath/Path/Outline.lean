import DocumentPath.Filter.Bracketed
import DocumentPath.Filter.Object
import DocumentPath.Path.Segment

namespace DocumentPath

/-- A piece of a path: a step, or a wildcard and the filter on what it stands for. -/
inductive Part
  | step (step : Step)
  | wildcard (filter : Option Expression)

/-- What a path says: steps, then one level for each wildcard with the steps behind it. -/
structure Outline where
  start : Segment
  levels : List (Option Expression × Segment)

namespace Outline

def isIterating (outline : Outline) : Bool := !outline.levels.isEmpty

/-- Puts a part in front. A step belongs to what comes after the last wildcard before it. -/
def cons : Part → Outline → Outline
  | .step step, outline => ⟨step :: outline.start, outline.levels⟩
  | .wildcard filter, outline => ⟨[], (filter, outline.start) :: outline.levels⟩

def ofParts (parts : List Part) : Outline := parts.foldr cons ⟨[], []⟩

/-- Puts the pieces of a filter together again, which the dots inside it had parted: as many as its
brackets need. -/
def joinFilter (opening closing : Char) (path text : List Char) : (pieces : List (List Char)) →
    Except Error (List Char × { rest : List (List Char) // rest.length ≤ pieces.length })
  | [] =>
    if isBalanced opening closing text then .ok (text, ⟨[], Nat.le_refl _⟩)
    else .error (.query (.openFilter (String.ofList text) (String.ofList path)))
  | piece :: pieces =>
    if isBalanced opening closing text then .ok (text, ⟨piece :: pieces, Nat.le_refl _⟩)
    else (joinFilter opening closing path (text ++ '.' :: piece) pieces).map fun (text, rest) =>
      (text, ⟨rest.1, Nat.le_succ_of_le rest.2⟩)

/-- Reads the parts of a path from its pieces between dots. -/
def readParts (path : List Char) : List (List Char) → Except Error (List Part)
  | [] => .ok []
  | [] :: _ => .error (.query (.emptyStep (String.ofList path)))
  | (c :: cs) :: pieces =>
    if c = '[' then
      match joinFilter '[' ']' path (c :: cs) pieces with
      | .error e => .error e
      | .ok (text, ⟨rest, _⟩) => do
        let filter ← Filter.ofBrackets text
        return .wildcard filter :: (← readParts path rest)
    else if c = '*' then
      match joinFilter '\x7b' '\x7d' path (c :: cs) pieces with
      | .error e => .error e
      | .ok (text, ⟨rest, _⟩) => do
        let filter ← Expression.ofJsonText (text.drop 1)
        return .wildcard filter :: (← readParts path rest)
    else do
      let rest ← readParts path pieces
      return .step (Step.ofText (c :: cs)) :: rest
termination_by pieces => pieces.length
decreasing_by
  · simp only [List.length_cons]
    omega
  · simp only [List.length_cons]
    omega
  · simp

/-- Reads a path: `$`, then parts with a dot before each. -/
def ofPath (path : String) : Except Error Outline :=
  match path.toList with
  | ['$'] => .ok ⟨[], []⟩
  | '$' :: '.' :: rest => (readParts path.toList (splitOutside '.' rest)).map ofParts
  | '$' :: _ => .error (.query (.noStep path))
  | _ => .error (.query (.noRoot path))

end Outline

end DocumentPath
