import DocumentPath.Proofs.Evaluation.Strict
import DocumentPath.Proofs.Operands.Counting

namespace DocumentPath

namespace Arithmetic

/-- Operands that are neither two numbers nor two strings to be added, or two numbers for which
doubles give no finite result or are not divided. -/
def Invalid (op : Operator) (a b : Value) : Prop :=
  ¬(a.isNumber = true ∧ b.isNumber = true) ∧
      ¬(op = .add ∧ a.string?.isSome = true ∧ b.string?.isSome = true) ∨
    ∃ x y, a.toFloat? = some x ∧ b.toFloat? = some y ∧ floats op x y = .null

theorem ofScaled?_ne_null (d : Decimal.Scaled) : ofScaled? d ≠ some .null := by
  rw [ofScaled?]
  split
  · intro h
    obtain ⟨n, _, he⟩ := Option.map_eq_some_iff.mp h
    cases he
  · intro h
    cases h

/-- What decimals have no room for is left to doubles. -/
theorem floats_of_mixed {op : Operator} {x y : Float} {a b : Option Decimal.Scaled}
    (h : mixed op x y a b = .null) : floats op x y = .null := by
  rw [mixed] at h
  generalize hr : ((do ofScaled? (← scaled? op (← a) (← b))) : Option Value) = result at h
  cases result with
  | none => exact h
  | some v =>
    obtain ⟨_, _, hr⟩ := Option.bind_eq_some_iff.mp hr
    obtain ⟨_, _, hr⟩ := Option.bind_eq_some_iff.mp hr
    obtain ⟨d, _, hr⟩ := Option.bind_eq_some_iff.mp hr
    cases h
    exact absurd hr (ofScaled?_ne_null d)

theorem floats_of_integers {op : Operator} {m n : Int64} (h : integers op m n = .null) :
    floats op (Binary64.ofWord m) (Binary64.ofWord n) = .null := by
  rw [integers] at h
  split at h
  · cases h
  · exact h

theorem invalid_of_apply {op : Operator} {a b : Value} (h : apply op a b = .null) :
    Invalid op a b := by
  by_cases numbers : a.isNumber = true ∧ b.isNumber = true
  · right
    obtain ⟨ha, hb⟩ := numbers
    cases a <;> try cases ha
    all_goals cases b <;> try cases hb
    · exact ⟨_, _, rfl, rfl, h⟩
    · exact ⟨_, _, rfl, rfl, floats_of_mixed h⟩
    · exact ⟨_, _, rfl, rfl, floats_of_mixed h⟩
    · exact ⟨_, _, rfl, rfl, floats_of_integers h⟩
  · left
    refine ⟨numbers, ?_⟩
    rintro ⟨rfl, ha, hb⟩
    cases a <;> cases ha
    cases b <;> cases hb
    cases h

end Arithmetic

namespace Operator

def isArithmetic : Operator → Bool
  | .add | .sub | .mul | .div | .mod | .pow => true
  | _ => false

/-- An operator has a value at exactly the counts of operands that it takes. -/
theorem isSome_value? (op : Operator) (vs : List Value) :
    (op.value? vs).isSome = op.takes vs.length := by
  have some_of_cons (decides : Value → Bool) (v : Value) (vs : List Value) :
      (deciding? decides (v :: vs)).isSome = true := by
    obtain ⟨w, found, _⟩ := exists_deciding? decides v vs
    rw [found, Option.isSome_some]
  rcases vs with _ | ⟨a, _ | ⟨b, _ | ⟨c, _ | ⟨d, vs⟩⟩⟩⟩
  case nil => cases op <;> rfl
  all_goals
    cases op with
    | and | or => exact some_of_cons _ _ _
    | _ => simp [value?, takes, isUnary, isVariadic]

theorem mem_of_deciding? {decides : Value → Bool} {vs : List Value} {v : Value}
    (h : deciding? decides vs = some v) : v ∈ vs := by
  cases hf : vs.find? decides with
  | some w =>
    rw [deciding?, hf] at h
    cases h
    exact List.mem_of_find?_eq_some hf
  | none =>
    rw [deciding?, hf] at h
    exact List.mem_of_getLast? h

/-- Where an operator gives `null`, it took an operand that is `null`, or it was asked to compute
with invalid operands. -/
theorem null_of_value? {op : Operator} {vs : List Value} (h : op.value? vs = some .null) :
    (op.isVariadic = true ∧ .null ∈ vs) ∨
      ∃ a b, vs = [a, b] ∧ op.isArithmetic = true ∧ Arithmetic.Invalid op a b := by
  cases op with
  | and | or => exact .inl ⟨rfl, mem_of_deciding? h⟩
  | add | sub | mul | div | mod | pow =>
    rcases vs with _ | ⟨a, _ | ⟨b, _ | ⟨c, vs⟩⟩⟩
    case cons.cons.nil =>
      exact .inr ⟨a, b, rfl, rfl, Arithmetic.invalid_of_apply (Option.some.inj h)⟩
    all_goals cases h
  | _ =>
    -- the values of these are booleans
    rcases vs with _ | ⟨a, _ | ⟨b, _ | ⟨c, _ | ⟨d, vs⟩⟩⟩⟩
    all_goals cases h

end Operator

namespace Expression

theorem map_predicates (es : List Expression) (subject : Subject) :
    (predicates es).map (· subject) = es.map fun e => e.predicate subject := by
  rw [predicates_eq_evalAll, evalAll_eq_map]
  exact List.map_congr_left fun e _ => (predicate_eq_eval e).symm

mutual

/-- An expression with everything it is made of. -/
def parts : Expression → List Expression
  | .call op operands => .call op operands :: operandParts operands
  | e => [e]

def operandParts : List Expression → List Expression
  | [] => []
  | e :: es => e.parts ++ operandParts es

end

mutual

theorem mem_calls_of_mem_parts {e : Expression} {op : Operator} {operands : List Expression}
    (h : .call op operands ∈ e.parts) : (op, operands.length) ∈ e.calls := by
  cases e with
  | call op' es =>
    rw [parts] at h
    rcases List.mem_cons.mp h with he | h
    · cases he
      exact List.mem_cons_self
    · exact List.mem_cons_of_mem _ (mem_operandCalls_of_mem_operandParts h)
  | _ => simp [parts] at h

theorem mem_operandCalls_of_mem_operandParts {es : List Expression} {op : Operator}
    {operands : List Expression} (h : .call op operands ∈ operandParts es) :
    (op, operands.length) ∈ operandCalls es := by
  cases es with
  | nil => cases h
  | cons e es =>
    rw [operandParts] at h
    rw [operandCalls]
    rcases List.mem_append.mp h with h | h
    · exact List.mem_append_left _ (mem_calls_of_mem_parts h)
    · exact List.mem_append_right _ (mem_operandCalls_of_mem_operandParts h)

end

mutual

/-- Every call that is read from a document has as many operands as its operator takes. -/
theorem takes_of_ofJson {j : Json} {e : Expression} (h : ofJson j = .ok e) :
    ∀ call ∈ e.calls, call.1.takes call.2 = true := by
  cases j with
  | object members =>
    rcases members with _ | ⟨⟨key, j⟩, _ | ⟨m, ms⟩⟩
    · simp [ofJson] at h
    · rw [ofJson] at h
      split_ifs at h
      · obtain ⟨path, _, rfl⟩ := exists_of_map_ok h
        exact List.forall_mem_nil _
      · obtain ⟨path, _, rfl⟩ := exists_of_map_ok h
        exact List.forall_mem_nil _
      · split at h
        · cases h
        · obtain ⟨operands, read, h⟩ := exists_of_bind_ok h
          split_ifs at h with takes
          cases h
          exact List.forall_mem_cons.mpr ⟨takes, takes_of_operandsOfJson read⟩
    · simp [ofJson] at h
  | _ =>
    simp only [ofJson] at h
    cases h
    exact List.forall_mem_nil _

theorem takes_of_operandsOfJson {j : Json} {es : List Expression} (h : operandsOfJson j = .ok es) :
    ∀ call ∈ operandCalls es, call.1.takes call.2 = true := by
  unfold operandsOfJson at h
  split at h
  · exact takes_of_itemsOfJson h
  · obtain ⟨e, read, h⟩ := exists_of_bind_ok h
    cases h
    rw [operandCalls, operandCalls, List.append_nil]
    exact takes_of_ofJson read

theorem takes_of_itemsOfJson {js : List Json} {es : List Expression} (h : itemsOfJson js = .ok es) :
    ∀ call ∈ operandCalls es, call.1.takes call.2 = true := by
  cases js with
  | nil =>
    rw [itemsOfJson] at h
    cases h
    exact List.forall_mem_nil _
  | cons j js =>
    rw [itemsOfJson] at h
    obtain ⟨e, first, h⟩ := exists_of_bind_ok h
    obtain ⟨es, rest, h⟩ := exists_of_bind_ok h
    cases h
    exact List.forall_mem_append.mpr ⟨takes_of_ofJson first, takes_of_itemsOfJson rest⟩

end

theorem takes_of_read {e : Expression}
    (h : (∃ text, parse text = .ok e) ∨ ∃ j, ofJson j = .ok e) :
    ∀ call ∈ e.calls, call.1.takes call.2 = true := by
  rcases h with ⟨text, parsed⟩ | ⟨j, read⟩
  · obtain ⟨s⟩ := Filter.parse_eq_ok_iff.mp parsed
    exact Filter.takes_of_readCall s.read
  · exact takes_of_ofJson read

/-- What operators take is what they have a value at. So in an expression that is read, from text or
from a document, every call at every depth has the value of its operator at the values of its
operands, and is never `null` for their number: where it is `null`, a `null` among the operands of
`and` or `or` was taken, or two operands were invalid for arithmetic. -/
theorem value_of_read {e : Expression}
    (h : (∃ text, parse text = .ok e) ∨ ∃ j, ofJson j = .ok e) :
    (∀ (op : Operator) vs, (op.value? vs).isSome = op.takes vs.length) ∧
    ∀ op operands, .call op operands ∈ e.parts →
      op.takes operands.length = true ∧
      ∀ subject, let values := operands.map fun o => o.predicate subject
        op.value? values = some ((call op operands).predicate subject) ∧
        ((call op operands).predicate subject = .null →
          (op.isVariadic = true ∧ .null ∈ values) ∨
          ∃ a b, values = [a, b] ∧ op.isArithmetic = true ∧ Arithmetic.Invalid op a b) := by
  refine ⟨Operator.isSome_value?, fun op operands part => ?_⟩
  have takes : op.takes operands.length = true :=
    takes_of_read h _ (mem_calls_of_mem_parts part)
  refine ⟨takes, fun subject => ?_⟩
  intro values
  have supported : (op.value? values).isSome = true := by
    rw [Operator.isSome_value?, List.length_map, takes]
  obtain ⟨v, found⟩ := Option.isSome_iff_exists.mp supported
  have value : (call op operands).predicate subject = v := by
    rw [predicate_call, map_predicates, Operator.apply, found, Option.getD_some]
  rw [value]
  exact ⟨found, fun null => Operator.null_of_value? (null ▸ found)⟩

/-- Two ways to write one filter. Nothing is found in an empty object, so the sum fails, and the
alternative takes its `null`. -/
theorem value_of_read_failing_sum :
    let sum : Expression := .call .add [.element "b", .literal (.integer 1)]
    let between : Expression :=
      .call .lt [.literal (.integer 1), .element "a", .literal (.integer 5)]
    let e : Expression := .call .or [between, sum]
    let document : Json := .object [("or", .array [
      .object [("<", .array [.integer 1, .object [("var", .string "a")], .integer 5])],
      .object [("+", .array [.object [("var", .string "b")], .integer 1])]])]
    let nothing : Subject := ⟨.object [], none⟩
    parse "(1 < @.a, 5) || @.b + 1" = .ok e ∧ ofJson document = .ok e ∧
    e.predicate nothing = .null ∧
    Operator.value? .or [.boolean false, .null] = some .null ∧
    Arithmetic.Invalid .add .null (.integer 1) := by
  intro sum between e document nothing
  have parsed : parse "(1 < @.a, 5) || @.b + 1" = .ok e := by with_unfolding_all rfl
  have read : ofJson document = .ok e := by
    simp only [document, ofJson, operandsOfJson, itemsOfJson, referencePath]
    with_unfolding_all rfl
  have missing : (element "b").predicate nothing = .null := by with_unfolding_all rfl
  have failed : sum.predicate nothing = .null := by with_unfolding_all rfl
  have outside : between.predicate nothing = .boolean false := by with_unfolding_all rfl
  have value : e.predicate nothing = .null := by with_unfolding_all rfl
  obtain ⟨_, calls⟩ := value_of_read (.inr ⟨document, read⟩)
  obtain ⟨_, alternative⟩ := calls .or [between, sum] List.mem_cons_self
  obtain ⟨_, addition⟩ := calls .add [.element "b", .literal (.integer 1)]
    (by simp [e, between, sum, parts, operandParts])
  refine ⟨parsed, read, value, ?_, ?_⟩
  · have taken := (alternative nothing).1
    rw [List.map_cons, List.map_cons, outside, failed] at taken
    exact taken.trans (congrArg some value)
  · obtain ⟨variadic, _⟩ | ⟨a, b, operands, _, fails⟩ := (addition nothing).2 failed
    · cases variadic
    · rw [List.map_cons, missing] at operands
      cases operands
      exact fails

end Expression

end DocumentPath
