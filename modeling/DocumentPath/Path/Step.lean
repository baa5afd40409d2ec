namespace DocumentPath

/-- One step of a path: a key, and whether its written form needs quotes. -/
structure Step where
  key : String
  quoted : Bool
  deriving DecidableEq, Repr

namespace Step

/-- Whether a bare key has to be quoted: it contains a bracket or a plus sign, or begins with a
digit. -/
def needsQuotes (cs : List Char) : Bool :=
  cs.any (fun c => c ∈ ['(', ')', '+', '[', ']']) || cs.head?.any Char.isDigit

/-- What stands between the quotes of a text that is quoted as a whole. -/
def unquoted? : List Char → Option (List Char)
  | '"' :: c :: cs => if (c :: cs).getLast? = some '"' then some (c :: cs).dropLast else none
  | _ => none

/-- Reads a step. Backslashes between quotes stay as they are. -/
def ofText (cs : List Char) : Step :=
  match unquoted? cs with
  | some key => ⟨String.ofList key, true⟩
  | none => ⟨String.ofList cs, needsQuotes cs⟩

/-- The written form of a step. -/
def text (step : Step) : String :=
  if step.quoted then "[\"" ++ step.key ++ "\"]" else "." ++ step.key

end Step

end DocumentPath
