import DocumentPath.Filter.CallForm

namespace DocumentPath.Infix

/-- One or more ASCII digits. -/
structure Digits where
  chars : List Char
  ne_nil : chars ≠ []
  isDigit : ∀ c ∈ chars, c.isDigit = true

/-- A number as it is written: digits, perhaps with a minus sign in front and with a point and
places behind. -/
structure Numeral where
  negative : Bool
  whole : Digits
  places : Option Digits

namespace Numeral

/-- The text behind the sign. -/
def magnitude (n : Numeral) : List Char :=
  n.whole.chars ++ n.places.elim [] fun places => '.' :: places.chars

def chars (n : Numeral) : List Char := if n.negative then '-' :: n.magnitude else n.magnitude

/-- A whole number is an integer where 64 bits have room for it. All other numbers are the nearest
doubles. -/
def value (n : Numeral) : Value :=
  let double (digits : List Char) (places : Nat) : Value :=
    let x := Decimal.toFloat (Nat.ofDigitChars 10 digits 0) (-places)
    .float (if n.negative then -x else x)
  match n.places with
  | some places => double (n.whole.chars ++ places.chars) places.chars.length
  | none =>
    let k : Int := Nat.ofDigitChars 10 n.whole.chars 0
    match Word.ofInt? (if n.negative then -k else k) with
    | some word => .integer word
    | none => double n.whole.chars 0

end Numeral

/-- A string as it is written: every character between the quotes stands for itself, alone or behind
a backslash. The quote and the backslash need one. -/
structure Quotation where
  quote : Char
  body : List (Bool × Char)
  isQuote : Filter.isQuote quote = true
  plain : ∀ c, (false, c) ∈ body → c ≠ quote ∧ c ≠ '\\'

namespace Quotation

def inner (body : List (Bool × Char)) : List Char :=
  body.flatMap fun (escaped, c) => if escaped then ['\\', c] else [c]

def chars (s : Quotation) : List Char := s.quote :: (inner s.body ++ [s.quote])

def value (s : Quotation) : String := String.ofList (s.body.map Prod.snd)

end Quotation

def isNameChar (c : Char) : Bool := Text.isAlphanumeric c || c = '_'

/-- A key that a reference can name. -/
structure Name where
  chars : List Char
  ne_nil : chars ≠ []
  isNameChar : ∀ c ∈ chars, isNameChar c = true

/-- Names with dots between them. -/
def dotted : List Name → List Char
  | [] => []
  | [name] => name.chars
  | name :: names => name.chars ++ '.' :: dotted names

/-- What an expression is built from. The paths of references may be empty. -/
inductive Leaf
  | number (n : Numeral)
  | string (s : Quotation)
  | boolean (b : Bool)
  | null
  | element (names : List Name)
  | context (names : List Name)

namespace Leaf

def chars : Leaf → List Char
  | .number n => n.chars
  | .string s => s.chars
  | .boolean true => "true".toList
  | .boolean false => "false".toList
  | .null => "null".toList
  | .element names => '@' :: names.flatMap fun name => '.' :: name.chars
  | .context names => '$' :: names.flatMap fun name => '.' :: name.chars

def expression : Leaf → Expression
  | .number n => .literal n.value
  | .string s => .literal (.string s.value)
  | .boolean b => .literal (.boolean b)
  | .null => .literal .null
  | .element names => .element (String.ofList (dotted names))
  | .context names => .context (String.ofList (dotted names))

end Leaf

/-- How tight an operator between two operands binds, the tightest first; zero for those that do not
stand between operands. -/
def rank : Operator → Nat
  | .not | .truthy => 0
  | .pow => 1
  | .mul | .div => 2
  | .mod => 3
  | .add | .sub => 4
  | .le | .lt | .gt | .ge | .within => 5
  | .strictNe | .looseNe | .strictEq | .looseEq => 6
  | .and => 7
  | .or => 8

/-- The rank of the operators that bind least. -/
def loosest : Nat := 8

/-- An expression of the infix grammar. -/
inductive Tree
  | leaf (leaf : Leaf)
  | negate (operand : Tree)
  | join (op : Operator) (isInfix : 0 < rank op) (left right : Tree)

def Tree.expression : Tree → Expression
  | .leaf l => l.expression
  | .negate operand => .call .not [operand.expression]
  | .join op _ left right => .call op [left.expression, right.expression]

inductive Token
  | leaf (leaf : Leaf)
  | operator (op : Operator)
  | opening
  | closing

/-- How an operator is written: by its sign in the call form, but for the one that is a word. -/
def symbol (op : Operator) : List Char :=
  if op = .within then ['i', 'n'] else Filter.token op

def Token.chars : Token → List Char
  | .leaf l => l.chars
  | .operator op => symbol op
  | .opening => ['(']
  | .closing => [')']

/-- The tokens are a way to write the tree where operators up to a rank may stand free. Any
expression may stand in parentheses, and all operators group to the left. -/
inductive Writes : Nat → Tree → List Token → Prop
  | leaf (k : Nat) (l : Leaf) : Writes k (.leaf l) [.leaf l]
  | negate (k : Nat) {operand : Tree} {ts : List Token} :
    Writes 0 operand ts → Writes k (.negate operand) (.operator .not :: ts)
  | join {k : Nat} {op : Operator} {left right : Tree} {ls rs : List Token} (h : 0 < rank op) :
    rank op ≤ k → Writes (rank op) left ls → Writes (rank op - 1) right rs →
    Writes k (.join op h left right) (ls ++ .operator op :: rs)
  | group (k : Nat) {tree : Tree} {ts : List Token} :
    Writes loosest tree ts → Writes k tree (.opening :: (ts ++ [.closing]))

/-- The word that is an operator; it needs blanks around it. -/
def inWord : List Char := symbol .within

/-- The text has the words in order, with blanks wherever it likes. -/
inductive Spaced : List (List Char) → List Char → Prop
  | nil {gap : List Char} : (∀ c ∈ gap, Text.isBlank c = true) → Spaced [] gap
  | cons {gap word cs : List Char} {words : List (List Char)} :
    (∀ c ∈ gap, Text.isBlank c = true) →
    (word = inWord → gap ≠ [] ∧ cs.head?.any Text.isBlank = true) →
    Spaced words cs → Spaced (word :: words) (gap ++ (word ++ cs))

/-- The text is a way to write the tree. -/
def IsText (tree : Tree) (cs : List Char) : Prop :=
  ∃ ts, Writes loosest tree ts ∧ Spaced (ts.map Token.chars) cs

end DocumentPath.Infix
