import DocumentPath.Filter.CallForm

namespace DocumentPath.Filter

/-- The characters of a bracketed filter outside its strings. -/
def isBodyChar (c : Char) : Bool :=
  c.isAlphanum || Text.isBlank c || c ∈ ['_', '$', '@', '.', '!', '*', '<', '=', '>', '|', '&', '+',
    '-', '/', '%', '#', ',', '(', ')']

/-- What stands between `[?(` and `)]`. -/
def body? : List Char → Option (List Char)
  | '[' :: '?' :: '(' :: cs =>
    match cs.reverse with
    | ']' :: ')' :: cs => some cs.reverse
    | _ => none
  | _ => none

/-- Reads a bracketed filter `[?( … )]`. The filter `[*]` accepts everything and is none. -/
def ofBrackets (step : List Char) : Except Error (Option Expression) :=
  let step := Text.trim step
  if step = ['[', '*', ']'] then .ok none
  else
    match body? step with
    | none => .error (.query (.notFilter (String.ofList step)))
    | some body =>
      match extract body with
      | .error fault => .error (.expression fault)
      | .ok extraction =>
        if extraction.text ≠ [] ∧ extraction.text.all isBodyChar then
          ((Expression.parse (String.ofList body)).mapError .expression).map some
        else .error (.query (.filterCharacters (String.ofList step)))

end DocumentPath.Filter
