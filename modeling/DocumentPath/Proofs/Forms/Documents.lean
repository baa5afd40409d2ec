import DocumentPath.Proofs.Json.Tokens
import DocumentPath.Proofs.Operands.Counting

namespace DocumentPath

namespace Value

mutual

/-- Whether all numbers in a value have a text: none is a NaN or an infinity. -/
def isFinite : Value → Bool
  | .float x => x.isFinite
  | .array items => areFinite items
  | .object members => haveFinite members
  | _ => true

def areFinite : List Value → Bool
  | [] => true
  | v :: vs => v.isFinite && areFinite vs

def haveFinite : List (String × Value) → Bool
  | [] => true
  | (_, v) :: ms => v.isFinite && haveFinite ms

end

def isObject : Value → Bool
  | .object _ => true
  | _ => false

end Value

namespace Json

mutual

/-- A value whose numbers have a text is kept by its document. -/
theorem toValue_ofValue {v : Value} (h : v.isFinite = true) : (ofValue v).toValue = v := by
  cases v with
  | integer n => rw [ofValue, toValue, Word.ofInt?_toInt]
  | float x =>
    rw [Value.isFinite] at h
    rw [ofValue, if_pos h, toValue]
  | array items => rw [ofValue, toValue, toValues_ofValues h]
  | object members => rw [ofValue, toValue, toMembers_ofMembers h]
  | _ => rfl

theorem toValues_ofValues {vs : List Value} (h : Value.areFinite vs = true) :
    toValues (ofValues vs) = vs := by
  cases vs with
  | nil => rfl
  | cons v vs =>
    obtain ⟨first, rest⟩ := (Bool.and_eq_true _ _).mp h
    rw [ofValues, toValues, toValue_ofValue first, toValues_ofValues rest]

theorem toMembers_ofMembers {ms : List (String × Value)} (h : Value.haveFinite ms = true) :
    toMembers (ofMembers ms) = ms := by
  cases ms with
  | nil => rfl
  | cons m ms =>
    obtain ⟨first, rest⟩ := (Bool.and_eq_true _ _).mp h
    rw [ofMembers, toMembers, toValue_ofValue first, toMembers_ofMembers rest]

end

end Json

namespace Expression

mutual

/-- An expression as a document: an object with the key of a reference or the symbol of a call. -/
def toJson : Expression → Json
  | .literal v => Json.ofValue v
  | .element path => .object [("var", .string path)]
  | .context path => .object [("context", .string path)]
  | .call op operands => .object [(op.symbol, .array (operandsToJson operands))]

def operandsToJson : List Expression → List Json
  | [] => []
  | e :: es => e.toJson :: operandsToJson es

end

mutual

/-- The operands without operands of their own, from left to right. -/
def leaves : Expression → List Expression
  | .call _ operands => operandLeaves operands
  | e => [e]

def operandLeaves : List Expression → List Expression
  | [] => []
  | e :: es => e.leaves ++ operandLeaves es

end

/-- Literals that documents can hold as literals: an object there is a reference or a call. -/
def IsPlain (v : Value) : Prop := v.isObject = false ∧ v.isFinite = true

/-- The calls of an expression have the operands that they take, and its literals can stand in a
document. -/
structure HasDocument (e : Expression) : Prop where
  takes : ∀ call ∈ e.calls, call.1.takes call.2 = true
  literals : ∀ v, .literal v ∈ e.leaves → IsPlain v

theorem ofJson_literal {v : Value} (h : IsPlain v) :
    ofJson (Json.ofValue v) = .ok (.literal v) := by
  have plain {j : Json} (hj : j.isObject = false) : ofJson j = .ok (.literal j.toValue) := by
    cases j with
    | object members => cases hj
    | _ => simp [ofJson]
  have kind : (Json.ofValue v).isObject = false := by
    cases v with
    | object members => cases h.1
    | float x =>
      rw [Json.ofValue]
      split <;> rfl
    | _ => rfl
  rw [plain kind, Json.toValue_ofValue h.2]

theorem symbol_ne_reference (op : Operator) : op.symbol ≠ "var" ∧ op.symbol ≠ "context" := by
  cases op <;> decide

mutual

/-- An expression is read back from its document. -/
theorem ofJson_toJson {e : Expression} (h : e.HasDocument) : ofJson e.toJson = .ok e := by
  cases e with
  | literal v => exact ofJson_literal (h.literals v (List.mem_singleton_self _))
  | element path =>
    rw [toJson, ofJson, if_pos rfl]
    rfl
  | context path =>
    rw [toJson, ofJson, if_neg (by decide), if_pos rfl]
    rfl
  | call op operands =>
    obtain ⟨here, below⟩ := List.forall_mem_cons.mp h.takes
    obtain ⟨var, context⟩ := symbol_ne_reference op
    have read := itemsOfJson_toJson below h.literals
    rw [toJson, ofJson, if_neg var, if_neg context, Operator.ofSymbol?_symbol]
    simp only [operandsOfJson, read, bind, Except.bind, if_pos here]

theorem itemsOfJson_toJson {es : List Expression}
    (takes : ∀ call ∈ operandCalls es, call.1.takes call.2 = true)
    (literals : ∀ v, .literal v ∈ operandLeaves es → IsPlain v) :
    itemsOfJson (operandsToJson es) = .ok es := by
  cases es with
  | nil => rw [operandsToJson, itemsOfJson]
  | cons e es =>
    rw [operandCalls, List.forall_mem_append] at takes
    have first : ofJson e.toJson = .ok e :=
      ofJson_toJson ⟨takes.1, fun v hv => literals v (List.mem_append_left _ hv)⟩
    have rest := itemsOfJson_toJson takes.2 fun v hv => literals v (List.mem_append_right _ hv)
    rw [operandsToJson, itemsOfJson, first, rest]
    rfl

end

end Expression

namespace Filter

open Expression (operandLeaves)

variable {table : List Value}

theorem isObject_of_readNumber? {ds : List Char} {v : Value} (h : readNumber? ds = some v) :
    v.isObject = false := by
  unfold readNumber? at h
  split at h
  · cases h
    rfl
  · obtain ⟨x, _, rfl⟩ := Option.map_eq_some_iff.mp h
    rfl

theorem HasPlace.isObject {v : Value} (h : HasPlace v) : v.isObject = false := by
  rcases h with ⟨text, rfl⟩ | ⟨digits, read⟩
  · rfl
  · exact isObject_of_readNumber? read

/-- No text of an operand stands for an object. -/
theorem LeafText.isObject {text : List Char} {v : Value} (places : ∀ v ∈ table, HasPlace v)
    (h : LeafText table text (.literal v)) : v.isObject = false := by
  generalize he : Expression.literal v = e at h
  cases h with
  | number _ read =>
    cases he
    exact isObject_of_readNumber? read
  | keyword known =>
    cases he
    simp only [keywords, List.mem_cons, Prod.mk.injEq, List.not_mem_nil, or_false] at known
    rcases known with ⟨_, rfl⟩ | ⟨_, rfl⟩ | ⟨_, rfl⟩ <;> rfl
  | root hr => rcases hr with rfl | rfl <;> cases he
  | path hr => rcases hr with rfl | rfl <;> cases he
  | place _ found =>
    cases he
    exact (places v (List.mem_of_getElem? found)).isObject

/-- The leaves of an expression are read from texts of operands. -/
theorem leafText_of_mem_leaves {text : List Char} {e : Expression}
    (h : readCall table text = .ok e) (hd : depth text = 0) :
    ∀ l ∈ e.leaves, ∃ y, LeafText table y l := by
  have alone {text : List Char} {e : Expression} (leaf : LeafText table text e) :
      ∀ l ∈ e.leaves, ∃ y, LeafText table y l := by
    have only : e.leaves = [e] := by
      have call := leaf.isCall
      cases e <;> first | rfl | cases call
    rw [only]
    exact List.forall_mem_singleton.mpr ⟨text, leaf⟩
  refine readCall_induction (motive := fun _ e => ∀ l ∈ e.leaves, ∃ y, LeafText table y l)
    ?_ ?_ ?_ h hd
  · exact fun number read => alone (.number number read)
  · exact fun _ read => alone (leafText_of_readLeaf? read)
  · intro op inner es _ operands
    have below : ∀ l ∈ operandLeaves es, ∃ y, LeafText table y l := by
      generalize splitOperands 0 inner = texts at operands
      induction operands with
      | nil => exact List.forall_mem_nil _
      | cons first _ ih => exact List.forall_mem_append.mpr ⟨first, ih⟩
    exact below

end Filter

namespace Expression

/-- An expression that is parsed has a document, unless a number in it is too great for one. -/
theorem hasDocument_of_parse {text : String} {e : Expression} (h : parse text = .ok e)
    (finite : ∀ v, .literal v ∈ e.leaves → v.isFinite = true) : e.HasDocument := by
  obtain ⟨s⟩ := Filter.parse_eq_ok_iff.mp h
  refine ⟨Filter.takes_of_readCall s.read, fun v hv => ⟨?_, finite v hv⟩⟩
  obtain ⟨y, leaf⟩ := Filter.leafText_of_mem_leaves s.read s.nested.2.closed _ hv
  exact leaf.isObject s.hasPlace

end Expression

end DocumentPath
