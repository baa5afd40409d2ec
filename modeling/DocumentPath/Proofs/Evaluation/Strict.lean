import DocumentPath.Proofs.Evaluation.Contexts

namespace DocumentPath

namespace Expression

mutual

/-- The value of an expression where every operand is evaluated before its operator is applied. -/
def eval (subject : Subject) : Expression → Value
  | .literal v => v
  | .element path => lookUp path (some subject.element)
  | .context path => lookUp path subject.context
  | .call op operands => op.apply (evalAll subject operands)

def evalAll (subject : Subject) : List Expression → List Value
  | [] => []
  | e :: es => e.eval subject :: evalAll subject es

end

variable {subject : Subject}

theorem evalAll_eq_map (subject : Subject) (es : List Expression) :
    evalAll subject es = es.map (eval subject) := by
  induction es with
  | nil => rfl
  | cons e es ih => rw [evalAll, ih, List.map_cons]

/-- Stopping at the operand that decides gives what looking at all operands gives. -/
theorem firstDeciding_eq (decides : Value → Bool) (subject : Subject) (ps : List Predicate) :
    firstDeciding decides subject ps =
      (Operator.deciding? decides (ps.map (· subject))).getD .null := by
  induction ps with
  | nil => rfl
  | cons p ps ih =>
    cases ps with
    | nil =>
      cases h : decides (p subject) <;> simp [firstDeciding, Operator.deciding?, h]
    | cons q qs =>
      cases h : decides (p subject) with
      | true => simp [firstDeciding, Operator.deciding?, h]
      | false =>
        have behind : Operator.deciding? decides (p subject :: (q :: qs).map (· subject)) =
            Operator.deciding? decides ((q :: qs).map (· subject)) := by
          simp [Operator.deciding?, h]
        simp only [firstDeciding, h, Bool.false_eq_true, if_false, ih,
          List.map_cons (a := p), behind]

/-- A call is its operator at the values of all operands. -/
theorem predicate_call (op : Operator) (operands : List Expression) (subject : Subject) :
    (call op operands).predicate subject = op.apply ((predicates operands).map (· subject)) := by
  cases op with
  | and => exact firstDeciding_eq _ _ _
  | or => exact firstDeciding_eq _ _ _
  | _ => rfl

mutual

theorem predicate_eq_eval (e : Expression) : e.predicate subject = e.eval subject := by
  cases e with
  | call op operands => rw [predicate_call, predicates_eq_evalAll operands, eval]
  | _ => rfl

theorem predicates_eq_evalAll (es : List Expression) :
    (predicates es).map (· subject) = evalAll subject es := by
  cases es with
  | nil => rfl
  | cons e es =>
    rw [predicates, List.map_cons, predicate_eq_eval e, predicates_eq_evalAll es, evalAll]

end

end Expression

namespace Operator

/-- One of the operands is taken, and it decides exactly if any of them does. -/
theorem exists_deciding? (decides : Value → Bool) (v : Value) (vs : List Value) :
    ∃ w, deciding? decides (v :: vs) = some w ∧ decides w = (v :: vs).any decides := by
  cases hf : (v :: vs).find? decides with
  | some w =>
    have here := List.find?_some hf
    refine ⟨w, by simp [deciding?, hf], ?_⟩
    rw [here, List.any_eq_true.mpr ⟨w, List.mem_of_find?_eq_some hf, here⟩]
  | none =>
    -- no operand decides, so the last one is taken
    have never : ∀ u ∈ v :: vs, decides u = false := by simpa using hf
    let last := (v :: vs).getLast (List.cons_ne_nil v vs)
    refine ⟨last, by simp [deciding?, hf, last, List.getLast?_eq_some_getLast], ?_⟩
    rw [never last (List.getLast_mem _), List.any_eq_false.mpr (by simpa using never)]

theorem isTruthy_apply_and (v : Value) (vs : List Value) :
    (apply .and (v :: vs)).isTruthy = (v :: vs).all Value.isTruthy := by
  obtain ⟨w, found, decides⟩ := exists_deciding? (fun u => !u.isTruthy) v vs
  have value : apply .and (v :: vs) = w := by rw [apply, value?, found, Option.getD_some]
  rw [value, ← Bool.not_inj_iff, decides, List.all_eq_not_any_not, Bool.not_not]

theorem isTruthy_apply_or (v : Value) (vs : List Value) :
    (apply .or (v :: vs)).isTruthy = (v :: vs).any Value.isTruthy := by
  obtain ⟨w, found, decides⟩ := exists_deciding? Value.isTruthy v vs
  have value : apply .or (v :: vs) = w := by rw [apply, value?, found, Option.getD_some]
  rw [value, decides]

theorem isTruthy_apply_not (v : Value) : (apply .not [v]).isTruthy = !v.isTruthy := rfl

end Operator

namespace Expression

/-- The engine takes every expression, and its predicate gives, whatever it is asked about, the
value that comes out when every operand of every call is evaluated. A filter accepts what makes this
value truthy, `and` is truthy where all its operands are, `or` where one of them is, and `not` where
its operand is not. -/
theorem build_evaluates :
    (∀ e, ∃ p, Engine.standard.build e = .ok p ∧ (∀ subject, p subject = e.eval subject) ∧
      ∀ context item,
        Filter.accepts ⟨e, p⟩ context item = (e.eval ⟨item, some context⟩).isTruthy) ∧
    ∀ (subject : Subject) (e : Expression) (es : List Expression),
      (((call .and (e :: es)).predicate subject).isTruthy = true ↔
        ∀ o ∈ e :: es, (o.predicate subject).isTruthy = true) ∧
      (((call .or (e :: es)).predicate subject).isTruthy = true ↔
        ∃ o ∈ e :: es, (o.predicate subject).isTruthy = true) ∧
      (((call .not [e]).predicate subject).isTruthy = true ↔
        ¬(e.predicate subject).isTruthy = true) := by
  constructor
  · intro e
    refine ⟨e.predicate, rfl, fun subject => predicate_eq_eval e, fun context item => ?_⟩
    rw [Filter.accepts_standard rfl, predicate_eq_eval]
  · intro subject e es
    simp only [predicate_eq_eval, eval, evalAll_eq_map, List.map_cons, List.map_nil,
      Operator.isTruthy_apply_and, Operator.isTruthy_apply_or, Operator.isTruthy_apply_not]
    simp

end Expression

end DocumentPath
