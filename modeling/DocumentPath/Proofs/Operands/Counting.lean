import DocumentPath.Proofs.Adjacency.Segments
import DocumentPath.Proofs.Literals.Punctuation
import DocumentPath.Proofs.Operands.Pieces

namespace DocumentPath

namespace Expression

mutual

/-- The calls of an expression, each by its operator and how many operands it has. -/
def calls : Expression → List (Operator × Nat)
  | .call op operands => (op, operands.length) :: operandCalls operands
  | _ => []

def operandCalls : List Expression → List (Operator × Nat)
  | [] => []
  | e :: es => e.calls ++ operandCalls es

end

/-- How many operands calls have besides two each. -/
def surplus : List (Operator × Nat) → Nat
  | [] => 0
  | (_, count) :: calls => count - 2 + surplus calls

theorem surplus_append (cs ds : List (Operator × Nat)) :
    surplus (cs ++ ds) = surplus cs + surplus ds := by
  induction cs with
  | nil => exact (Nat.zero_add _).symm
  | cons c cs ih =>
    rw [List.cons_append, surplus, surplus, ih]
    omega

theorem le_two_of_surplus_eq_zero {cs : List (Operator × Nat)} (h : surplus cs = 0) :
    ∀ call ∈ cs, call.2 ≤ 2 := by
  induction cs with
  | nil => exact List.forall_mem_nil _
  | cons c cs ih =>
    rw [surplus] at h
    exact List.forall_mem_cons.mpr ⟨by omega, ih (by omega)⟩

/-- A call that an operator and the operands beside it can make, with commas in the operands. -/
def IsWritten (call : Operator × Nat) : Prop :=
  call = (.not, 1) ∨ 0 < Infix.rank call.1 ∧ 2 ≤ call.2 ∧ call.1.takes call.2 = true

end Expression

namespace Filter

open Expression (calls operandCalls surplus surplus_append IsWritten)

/-- An operator that is called takes as many operands as the call has. -/
theorem takes_of_call {table : List Value} {text : List Char} {op : Operator}
    {es : List Expression} (h : readCall table text = .ok (.call op es)) :
    op.takes es.length = true := by
  rw [readCall] at h
  split_ifs at h with number opening
  · split at h <;> cases h
  · simp only at h
    split at h
    · split at h
      · cases h
      · obtain ⟨operands, _, h⟩ := exists_of_bind_ok h
        split_ifs at h with takes
        cases h
        exact takes
    · cases h
  · split at h
    · rename_i leaf
      cases h
      exact absurd (readLeaf?_references leaf).1 (by simp [Expression.isCall])
    · cases h

theorem length_lt_totalLength {p : List Char} {ps : List (List Char)} (h : p ∈ ps) :
    p.length < totalLength ps := by
  induction ps with
  | nil => cases h
  | cons q ps ih =>
    rw [totalLength]
    rcases List.mem_cons.mp h with rfl | h
    · omega
    · have := ih h
      omega

theorem mem_operandCalls {call : Operator × Nat} {es : List Expression} :
    call ∈ operandCalls es ↔ ∃ e ∈ es, call ∈ e.calls := by
  induction es with
  | nil => simp [operandCalls]
  | cons e es ih => simp [operandCalls, ih]

theorem takes_of_readCall {table : List Value} {text : List Char} {e : Expression}
    (h : readCall table text = .ok e) : ∀ call ∈ e.calls, call.1.takes call.2 = true := by
  induction hn : text.length using Nat.strong_induction_on generalizing text e with
  | _ n ih =>
    cases e with
    | call op es =>
      rw [calls, List.forall_mem_cons]
      refine ⟨takes_of_call h, fun call hcall => ?_⟩
      rcases readCall_cases h with ⟨_, _, _, he⟩ | ⟨op, inner, es', rfl, read, he⟩ | ⟨_, leaf⟩
      · cases he
      · cases he
        obtain ⟨e, he, hcall⟩ := mem_operandCalls.mp hcall
        obtain ⟨p, hp, read⟩ := exists_zip_of_forall₂ (readCalls_forall₂ read).flip he
        have shorter : p.length < n := by
          have := length_lt_totalLength (List.of_mem_zip hp).2
          rw [totalLength_splitOperands] at this
          simp only [← hn, callText, List.length_append, List.length_cons, List.length_nil]
          omega
        exact ih p.length shorter read rfl call hcall
      · exact absurd (readLeaf?_references leaf).1 (by simp [Expression.isCall])
    | _ => simp [calls]

/-- What an expression has of the commas of the text it was read from. -/
structure Counted (n : Nat) (text : List Char) (e : Expression) : Prop where
  written : ∀ call ∈ e.calls, IsWritten call
  commas : e.isCall = true ∨ ',' ∉ text → surplus e.calls = n

/-- Where a text is composed and the calls of its expression have the operands they take, the commas
are counted. -/
structure Countable (text : List Char) (e : Expression) : Prop where
  nested : Nested text
  plain : e.isCall = false → ∀ c ∈ text, c ≠ '(' ∧ c ≠ ')'
  counted : (∀ call ∈ e.calls, call.1.takes call.2 = true) → ∀ n, Composed n text →
    Counted n text e

theorem countable_leaf {text : List Char} {e : Expression} (plain : ∀ c ∈ text, c ≠ '(' ∧ c ≠ ')')
    (leaf : e.isCall = false) : Countable text e where
  nested := nested_of_no_parens plain
  plain := fun _ => plain
  counted := by
    have none : e.calls = [] := by cases e <;> first | rfl | cases leaf
    refine fun _ n composed => ⟨by simp [none], fun comma => ?_⟩
    rw [none, composed.eq_zero (comma.resolve_left (by simp [leaf]))]
    rfl

/-- Operands share the commas of their text that part none of them. -/
theorem counted_operands {n : Nat} {texts : List (List Char)} {es : List Expression}
    (h : Pieces n texts) (countable : List.Forall₂ Countable texts es)
    (takes : ∀ call ∈ operandCalls es, call.1.takes call.2 = true)
    (alone : ∀ text ∈ texts, (∀ c ∈ text, c ≠ '(' ∧ c ≠ ')') → ',' ∉ text) :
    (∀ call ∈ operandCalls es, IsWritten call) ∧
      surplus (operandCalls es) + es.length = n + 1 := by
  have own {n : Nat} {text : List Char} {e : Expression} (here : Countable text e)
      (composed : Composed n text) (takes : ∀ call ∈ e.calls, call.1.takes call.2 = true)
      (alone : (∀ c ∈ text, c ≠ '(' ∧ c ≠ ')') → ',' ∉ text) :
      (∀ call ∈ e.calls, IsWritten call) ∧ surplus e.calls = n := by
    have counted := here.counted takes n composed
    refine ⟨counted.written, counted.commas ?_⟩
    cases call : e.isCall with
    | true => exact .inl rfl
    | false => exact .inr (alone (here.plain call))
  induction h generalizing es with
  | last first =>
    cases countable with
    | cons here rest =>
      cases rest
      rw [operandCalls, operandCalls, List.append_nil] at takes ⊢
      obtain ⟨written, commas⟩ := own here first takes (alone _ List.mem_cons_self)
      exact ⟨written, by rw [commas, List.length_singleton]⟩
  | cons first _ ih =>
    cases countable with
    | cons here rest =>
      rw [operandCalls, List.forall_mem_append] at takes
      obtain ⟨apart, others⟩ := List.forall_mem_cons.mp alone
      obtain ⟨written, commas⟩ := own here first takes.1 apart
      obtain ⟨writtens, total⟩ := ih rest takes.2 others
      rw [operandCalls, surplus_append, commas, List.length_cons, List.forall_mem_append]
      exact ⟨⟨written, writtens⟩, by omega⟩

theorem eq_not_of_suffix {op : Operator} (h : Operator.not.name.toList <:+ op.name.toList) :
    op = .not := by
  cases op <;> first | rfl | exact absurd h (by decide)

theorem ne_truthy_of_suffix {op op' : Operator} (known : op' ∈ searchOrder)
    (h : op'.name.toList <:+ op.name.toList) : op ≠ .truthy := by
  rintro rfl
  revert op'
  decide

theorem rank_pos {op : Operator} (negation : op ≠ .not) (truthy : op ≠ .truthy) :
    0 < Infix.rank op := by
  cases op <;> first | exact absurd rfl negation | exact absurd rfl truthy | decide

/-- An operator that was put into call form with so many commas among its operands has that many
operands too many, and so have the operators below it. -/
theorem counted_call {n : Nat} {op : Operator} {inner : List Char} {es : List Expression}
    (takes : op.takes es.length = true) (h : Ends op.name.toList inner n)
    (count : es.length = (splitOperands 0 inner).length)
    (operands : ∀ m, Pieces m (splitOperands 0 inner) →
      (∀ call ∈ operandCalls es, IsWritten call) ∧
        surplus (operandCalls es) + es.length = m + 1) :
    (∀ call ∈ calls (.call op es), IsWritten call) ∧ surplus (calls (.call op es)) = n := by
  rw [calls, List.forall_mem_cons, surplus]
  cases h with
  | negation name inside =>
    obtain ⟨written, total⟩ := operands n inside.pieces
    have one : es.length = 1 := by
      rw [eq_not_of_suffix name] at takes
      simpa [Operator.takes, Operator.isUnary] using takes
    rw [one] at total ⊢
    exact ⟨⟨.inl (by rw [eq_not_of_suffix name]), written⟩, by omega⟩
  | @joint l m _ u v known name parts left right =>
    rw [parts] at operands count
    obtain ⟨written, total⟩ := operands _ (left.operands right).pieces
    have two : 2 ≤ es.length := by
      have first := List.length_pos_iff.mpr (splitOperands_ne_nil 0 u)
      have second := List.length_pos_iff.mpr (splitOperands_ne_nil 0 v)
      rw [left.nested.splitOperands_append_comma, List.length_append] at count
      omega
    have negation : op ≠ .not := by
      rintro rfl
      have one : es.length = 1 := by simpa [Operator.takes, Operator.isUnary] using takes
      omega
    have infix' := rank_pos negation (ne_truthy_of_suffix known name)
    exact ⟨⟨.inr ⟨infix', two, takes⟩, written⟩, by omega⟩

theorem countable_call {op : Operator} {inner : List Char} {es : List Expression}
    (hd : depth inner = 0) (operands : List.Forall₂ Countable (splitOperands 0 inner) es) :
    Countable (callText op inner) (.call op es) := by
  obtain ⟨pieces, joined⟩ := splitOperands_closed hd
  have nested := (List.forall₂_and_left _ _).mp (operands.imp fun _ _ he => ⟨he.nested, he⟩)
  have inside : Nested inner := joined nested.1
  refine ⟨(nested_name op).append inside.parens, fun call => Bool.noConfusion call, ?_⟩
  intro takes n composed
  obtain ⟨here, below⟩ := List.forall_mem_cons.mp takes
  have ends : Ends op.name.toList inner n :=
    composed.ends (fun c hc => (Infix.isOperandChar_of_mem_name op c hc).2) inside
  obtain ⟨written, commas⟩ := counted_call here ends operands.length_eq.symm fun m hm =>
    counted_operands hm operands below fun text ht => (pieces text ht).2.2
  exact ⟨written, fun _ => commas⟩

/-- The operands that calls in a composed text have besides two each are those behind its commas. -/
theorem counted_of_readCall {table : List Value} {text : List Char} {e : Expression}
    (h : readCall table text = .ok e) (hd : depth text = 0) {n : Nat} (composed : Composed n text) :
    Counted n text e := by
  have countable : Countable text e := by
    refine readCall_induction (motive := Countable) ?_ ?_ countable_call h hd
    · exact fun number _ => countable_leaf (no_parens_of_isNumber number) rfl
    · exact fun plain leaf => countable_leaf plain (readLeaf?_references leaf).1
  exact countable.counted (takes_of_readCall h) n composed

theorem Stages.count_normal {ws : List Written} {e : Expression} (s : Stages (writtenChars ws) e) :
    s.normal.count ',' = (unquoted ws).count ',' := by
  have mark : isMark ',' = true := rfl
  rw [← List.count_filter mark, ← List.count_filter (l := unquoted ws) mark]
  exact congrArg (List.count ',') s.punctuation

theorem Stages.counted {ws : List Written} {e : Expression} (s : Stages (writtenChars ws) e) :
    Counted ((unquoted ws).count ',') s.call e := by
  have composed := composed_of_rewrite s.rewritten
  rw [s.count_normal] at composed
  exact counted_of_readCall s.read s.nested.2.closed composed

end Filter

namespace Expression

open DocumentPath.Filter (Written writtenChars unquoted)

/-- In an expression that is parsed every negation has one operand, and every other operator stands
between operands and has two, but each comma outside strings gives one operand more to some call of
an operator that takes it. -/
theorem operands_of_parse {text : String} {e : Expression} (h : parse text = .ok e) :
    (∀ call ∈ e.calls, IsWritten call) ∧
      (∃ ws, writtenChars ws = text.toList) ∧ ∀ ws, writtenChars ws = text.toList →
        (e.isCall = true → surplus e.calls = (unquoted ws).count ',') ∧
        (',' ∉ unquoted ws →
          ∀ call ∈ e.calls, call = (.not, 1) ∨ 0 < Infix.rank call.1 ∧ call.2 = 2) := by
  obtain ⟨s⟩ := Filter.parse_eq_ok_iff.mp h
  obtain ⟨ws, hws⟩ := Filter.exists_written s.extracted
  have counted (ws : List Written) (hws : writtenChars ws = text.toList) :
      ∃ cs, Filter.Counted ((unquoted ws).count ',') cs e := by
    rw [← hws] at s
    exact ⟨_, s.counted⟩
  obtain ⟨_, c⟩ := counted ws hws
  refine ⟨c.written, ⟨ws, hws⟩, fun vs hvs => ?_⟩
  obtain ⟨_, d⟩ := counted vs hvs
  refine ⟨fun call => d.commas (.inl call), fun comma call hcall => ?_⟩
  have isCall : e.isCall = true := by
    cases e with
    | call op es => rfl
    | _ => simp [calls] at hcall
  have none : surplus e.calls = 0 := by
    rw [d.commas (.inl isCall), List.count_eq_zero.mpr comma]
  have few := le_two_of_surplus_eq_zero none call hcall
  rcases d.written call hcall with negation | ⟨rank, two, _⟩
  · exact .inl negation
  · exact .inr ⟨rank, by omega⟩

theorem operands_of_parse_between :
    ∃ e, parse "!(0<=@.a,9)&&@.b==\",\"" = .ok e ∧
      e.calls = [(.and, 2), (.not, 1), (.le, 3), (.looseEq, 2)] ∧ surplus e.calls = 1 := by
  let comma : Infix.Quotation := ⟨'"', [(false, ',')], rfl, by simp⟩
  let ws : List Written := [.char '!' rfl, .char '(' rfl, .char '0' rfl, .char '<' rfl,
    .char '=' rfl, .char '@' rfl, .char '.' rfl, .char 'a' rfl, .char ',' rfl, .char '9' rfl,
    .char ')' rfl, .char '&' rfl, .char '&' rfl, .char '@' rfl, .char '.' rfl, .char 'b' rfl,
    .char '=' rfl, .char '=' rfl, .string comma]
  have parsed : parse "!(0<=@.a,9)&&@.b==\",\"" =
      .ok (.call .and [.call .not [.call .le [.literal (.integer 0), .element "a",
        .literal (.integer 9)]], .call .looseEq [.element "b", .literal (.string ",")]]) := by
    with_unfolding_all rfl
  exact ⟨_, parsed, rfl, ((operands_of_parse parsed).2.2 ws rfl).1 rfl⟩

/-- A comma that was typed brings an operator a third operand. -/
theorem operands_of_parse_typed_comma :
    (∃ e, parse "1<2,3" = .ok e ∧ e.calls = [(.lt, 3)]) ∧
      ∃ e, parse "@.a&&1,2" = .ok e ∧ e.calls = [(.and, 3)] := by
  constructor
  · exact ⟨.call .lt [.literal (.integer 1), .literal (.integer 2), .literal (.integer 3)],
      by with_unfolding_all rfl, rfl⟩
  · exact ⟨.call .and [.element "a", .literal (.integer 1), .literal (.integer 2)],
      by with_unfolding_all rfl, rfl⟩

end Expression

end DocumentPath
