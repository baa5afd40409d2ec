import DocumentPath.Decimal.Reader
import DocumentPath.Error
import DocumentPath.Filter.Quoted
import DocumentPath.Text.Alphanumeric
import DocumentPath.Text.Blank

namespace DocumentPath.Filter

/-- The mark that the word `in` becomes. -/
def wordMark : Char := '~'

theorem length_dropWhile_le {α : Type} (p : α → Bool) (l : List α) :
    (l.dropWhile p).length ≤ l.length :=
  (List.dropWhile_suffix p).sublist.length_le

/-- The rest of the text when a word `in` with a blank after it stands in front. -/
def afterWord? : (cs : List Char) → Option { rest : List Char // rest.length < cs.length }
  | 'i' :: 'n' :: c :: cs =>
    if Text.isBlank c then
      some ⟨cs.dropWhile Text.isBlank, by
        have := length_dropWhile_le Text.isBlank cs
        simp only [List.length_cons]
        omega⟩
    else none
  | _ => none

/-- Turns every word `in` between blanks into a mark and drops the blanks. -/
def joinWords : List Char → List Char
  | [] => []
  | c :: cs =>
    if Text.isBlank c then
      match afterWord? (cs.dropWhile Text.isBlank) with
      | some ⟨rest, _⟩ => wordMark :: joinWords rest
      | none => joinWords cs
    else c :: joinWords cs
termination_by cs => cs.length
decreasing_by
  · have := length_dropWhile_le Text.isBlank cs
    simp only [List.length_cons]
    omega
  · simp
  · simp

/-- A number as an integer where that has room, or else as a double. -/
def readNumber? (cs : List Char) : Option Value :=
  match Word.read? cs with
  | some n => some (.integer n)
  | none => (Decimal.read? cs).map .float

/-- The characters that operators are made of. -/
def isOperatorChar (c : Char) : Bool :=
  c ∈ ['!', '=', '<', '>', '&', '|', '+', '-', '*', '/', '%', wordMark]

/-- Whether a minus sign after this character belongs to a number. -/
def startsOperand : Option Char → Bool
  | none => true
  | some c => c = '(' || c = ',' || isOperatorChar c

def isNumberChar (c : Char) : Bool := c.isDigit || c = '.'

/-- Takes the numbers with a sign out of a text that follows the character `previous`. -/
def liftNumbers (literals : List Value) (previous : Option Char) :
    List Char → Except ExpressionFault (List Char × List Value)
  | [] => .ok ([], literals)
  | c :: cs =>
    if c = '-' ∧ startsOperand previous ∧ (cs.head?.any Char.isDigit) then
      let number := c :: cs.takeWhile isNumberChar
      match readNumber? number with
      | none => .error (.badNumber (String.ofList number))
      | some v => do
        let mark := placeholder literals.length
        let (text, literals) ←
          liftNumbers (literals ++ [v]) mark.getLast? (cs.dropWhile isNumberChar)
        .ok (mark ++ text, literals)
    else do
      let (text, literals) ← liftNumbers literals (some c) cs
      .ok (c :: text, literals)
termination_by cs => cs.length
decreasing_by
  · have := length_dropWhile_le isNumberChar cs
    simp only [List.length_cons]
    omega
  · simp

end DocumentPath.Filter
