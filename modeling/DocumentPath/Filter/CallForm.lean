import DocumentPath.Filter.Expression
import DocumentPath.Filter.Rewriting

namespace DocumentPath.Filter

/-- Parts operands at the commas that stand outside parentheses. -/
def splitOperands (depth : Int) : List Char → List (List Char)
  | [] => [[]]
  | c :: cs =>
    if c = ',' ∧ depth = 0 then [] :: splitOperands depth cs
    else
      let depth := if c = '(' then depth + 1 else if c = ')' then depth - 1 else depth
      (splitOperands depth cs).modifyHead (c :: ·)

/-- The length of texts with a mark after each. -/
def totalLength : List (List Char) → Nat
  | [] => 0
  | text :: texts => text.length + 1 + totalLength texts

theorem splitOperands_ne_nil (depth : Int) (cs : List Char) : splitOperands depth cs ≠ [] := by
  induction cs generalizing depth with
  | nil => simp [splitOperands]
  | cons c cs ih =>
    unfold splitOperands
    split
    · simp
    · simpa using ih _

theorem totalLength_splitOperands (depth : Int) (cs : List Char) :
    totalLength (splitOperands depth cs) = cs.length + 1 := by
  induction cs generalizing depth with
  | nil => rfl
  | cons c cs ih =>
    unfold splitOperands
    split
    · simpa [totalLength, Nat.add_comm] using ih depth
    · simp only
      generalize (if c = '(' then depth + 1 else if c = ')' then depth - 1 else depth) = d
      have := ih d
      cases hs : splitOperands d cs with
      | nil => exact absurd hs (splitOperands_ne_nil d cs)
      | cons t ts =>
        rw [hs] at this
        simp only [totalLength, List.modifyHead_cons, List.length_cons] at this ⊢
        omega

/-- Digits with an optional sign in front and optional places behind. -/
def isNumber (cs : List Char) : Bool :=
  let cs := if cs.head? = some '-' then cs.drop 1 else cs
  let tail := cs.dropWhile Char.isDigit
  cs.takeWhile Char.isDigit ≠ [] &&
    (tail = [] || (tail.head? = some '.' && tail.drop 1 ≠ [] && (tail.drop 1).all Char.isDigit))

/-- Reads an operand that is no number and has no operands of its own. -/
def readLeaf? (literals : List Value) : List Char → Option Expression
  | ['@'] => some (.element "")
  | ['$'] => some (.context "")
  | '@' :: '.' :: path => some (.element (String.ofList path))
  | '$' :: '.' :: path => some (.context (String.ofList path))
  | '#' :: n => do some (.literal (← literals[← Text.readIndex? n]?))
  | text =>
    if text = "true".toList then some (.literal (.boolean true))
    else if text = "false".toList then some (.literal (.boolean false))
    else if text = "null".toList then some (.literal .null)
    else none

theorem length_operands_lt {text : List Char} (h : '(' ∈ text) :
    ((text.dropWhile (· ≠ '(')).drop 1).length < text.length := by
  have hle := length_dropWhile_le (fun c => decide (c ≠ '(')) text
  have : 0 < text.length := List.length_pos_of_mem h
  simp only [List.length_drop]
  omega

mutual

/-- Reads a text in call form. -/
def readCall (literals : List Value) (text : List Char) : Except ExpressionFault Expression :=
  if isNumber text then
    match readNumber? text with
    | some v => .ok (.literal v)
    | none => .error (.badNumber (String.ofList text))
  else if _h : '(' ∈ text then
    let head := String.ofList (text.takeWhile (· ≠ '('))
    let operands := (text.dropWhile (· ≠ '(')).drop 1
    if _hl : operands.getLast? = some ')' then
      match Operator.ofName? head with
      | none => .error (.unknownOperator head)
      | some op => do
        let operands ← readCalls literals (splitOperands 0 operands.dropLast)
        if op.takes operands.length then .ok (.call op operands)
        else .error (.operandCount op operands.length)
    else .error (.unreadable (String.ofList text))
  else
    match readLeaf? literals text with
    | some e => .ok e
    | none => .error (.unreadable (String.ofList text))
termination_by text.length
decreasing_by
  have h1 := length_operands_lt _h
  have h2 : operands ≠ [] := by
    intro he
    simp [he] at _hl
  have h3 : 0 < ((text.dropWhile (· ≠ '(')).drop 1).length := List.length_pos_iff.mpr h2
  rw [totalLength_splitOperands, List.length_dropLast]
  omega

def readCalls (literals : List Value) : List (List Char) → Except ExpressionFault (List Expression)
  | [] => .ok []
  | text :: texts => do
    let e ← readCall literals text
    let es ← readCalls literals texts
    .ok (e :: es)
termination_by texts => totalLength texts
decreasing_by
  · simp only [totalLength]
    omega
  · simp only [totalLength]
    omega

end

end DocumentPath.Filter

namespace DocumentPath.Expression

/-- Reads an expression with operators between their operands, such as
`@.age > 20 && @.name != "Bob"`. -/
def parse (text : String) : Except ExpressionFault Expression := do
  let extraction ← Filter.extract text.toList
  let (normal, literals) ←
    Filter.liftNumbers (extraction.strings.map .string) none (Filter.joinWords extraction.text)
  Filter.readCall literals (← Filter.rewrite normal)

end DocumentPath.Expression
