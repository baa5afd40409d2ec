import DocumentPath.Evaluation.Arithmetic
import DocumentPath.Evaluation.Comparison

namespace DocumentPath.Operator

/-- The first operand that decides: one that `decides` holds of, or else the last. -/
def deciding? (decides : Value → Bool) (operands : List Value) : Option Value :=
  operands.find? decides <|> operands.getLast?

/-- The value of an operator at operands of a count that it takes. -/
def value? (op : Operator) (operands : List Value) : Option Value :=
  match op, operands with
  | .not, [a] => some (.boolean !a.isTruthy)
  | .truthy, [a] => some (.boolean a.isTruthy)
  | .looseEq, [a, b] => some (.boolean (a.looseEq b))
  | .looseNe, [a, b] => some (.boolean !a.looseEq b)
  | .strictEq, [a, b] => some (.boolean (a.strictEq b))
  | .strictNe, [a, b] => some (.boolean !a.strictEq b)
  | .lt, [a, b] => some (.boolean (a.isBelow b))
  | .le, [a, b] => some (.boolean (a.isAtMost b))
  | .gt, [a, b] => some (.boolean (b.isBelow a))
  | .ge, [a, b] => some (.boolean (b.isAtMost a))
  | .lt, [low, x, high] => some (.boolean (low.isBelow x && x.isBelow high))
  | .le, [low, x, high] => some (.boolean (low.isAtMost x && x.isAtMost high))
  | .within, [a, b] => some (.boolean (a.isWithin b))
  | .add, [a, b] => some (Arithmetic.apply .add a b)
  | .sub, [a, b] => some (Arithmetic.apply .sub a b)
  | .mul, [a, b] => some (Arithmetic.apply .mul a b)
  | .div, [a, b] => some (Arithmetic.apply .div a b)
  | .mod, [a, b] => some (Arithmetic.apply .mod a b)
  | .pow, [a, b] => some (Arithmetic.apply .pow a b)
  | .and, operands => deciding? (fun v => !v.isTruthy) operands
  | .or, operands => deciding? Value.isTruthy operands
  | _, _ => none

/-- The value of an operator; `null` at a count of operands that it does not take. -/
def apply (op : Operator) (operands : List Value) : Value := (op.value? operands).getD .null

end DocumentPath.Operator
