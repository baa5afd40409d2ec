namespace DocumentPath

/-- The operators of filters. The loose comparisons convert their operands, the strict ones do
not. -/
inductive Operator
  | not
  | truthy
  | or
  | and
  | looseEq
  | strictEq
  | looseNe
  | strictNe
  | lt
  | le
  | gt
  | ge
  | within
  | add
  | sub
  | mod
  | mul
  | div
  | pow
  deriving DecidableEq, Repr

namespace Operator

def all : List Operator :=
  [.not, .truthy, .or, .and, .looseEq, .strictEq, .looseNe, .strictNe, .lt, .le, .gt, .ge, .within,
    .add, .sub, .mod, .mul, .div, .pow]

/-- The name in front of the operands: `gt` in `gt(@.age,20)`. -/
def name : Operator → String
  | .not => "not"
  | .truthy => "truthy"
  | .or => "or"
  | .and => "and"
  | .looseEq => "eq"
  | .strictEq => "eeq"
  | .looseNe => "ne"
  | .strictNe => "neeq"
  | .lt => "lt"
  | .le => "lte"
  | .gt => "gt"
  | .ge => "gte"
  | .within => "in"
  | .add => "add"
  | .sub => "sub"
  | .mod => "mod"
  | .mul => "mul"
  | .div => "div"
  | .pow => "exp"

/-- The key of an operator in a filter that is written as an object. -/
def symbol : Operator → String
  | .not => "!"
  | .truthy => "!!"
  | .or => "or"
  | .and => "and"
  | .looseEq => "=="
  | .strictEq => "==="
  | .looseNe => "!="
  | .strictNe => "!=="
  | .lt => "<"
  | .le => "<="
  | .gt => ">"
  | .ge => ">="
  | .within => "in"
  | .add => "+"
  | .sub => "-"
  | .mod => "%"
  | .mul => "*"
  | .div => "/"
  | .pow => "**"

def ofName? (s : String) : Option Operator := all.find? fun op => op.name == s

def ofSymbol? (s : String) : Option Operator := all.find? fun op => op.symbol == s

def isUnary : Operator → Bool
  | .not | .truthy => true
  | _ => false

/-- Whether any number of operands is folded into one value. -/
def isVariadic : Operator → Bool
  | .and | .or => true
  | _ => false

/-- How many operands an operator takes. `<` and `<=` may have three and then mean "between". -/
def takes (op : Operator) (count : Nat) : Bool :=
  if op.isUnary then count == 1
  else if op.isVariadic then 1 ≤ count
  else match op with
    | .lt | .le => count == 2 || count == 3
    | _ => count == 2

theorem ofName?_name (op : Operator) : ofName? op.name = some op := by
  cases op <;> decide

theorem ofSymbol?_symbol (op : Operator) : ofSymbol? op.symbol = some op := by
  cases op <;> decide

end Operator

end DocumentPath
