import DocumentPath.Value.Access

namespace DocumentPath

/-- One step down into a value, as the document has it: keys are not read as indices here. -/
inductive Branch
  | member (key : String)
  | item (index : Nat)
  deriving DecidableEq

/-- A place in a document. -/
abbrev Position := List Branch

namespace Value

def child? : Value → Branch → Option Value
  | .object members, .member key => members.lookup key
  | .array items, .item i => items[i]?
  | _, _ => none

/-- Gives a child a new value. A member may be new, an item has to be there. -/
def setChild : Value → Branch → Value → Value
  | .object members, .member key, new => .object (Members.set key new members)
  | .array items, .item i, new => .array (items.set i new)
  | v, _, _ => v

/-- Whether a value has room for a child. -/
def hasSlot : Value → Branch → Bool
  | .object _, .member _ => true
  | .array items, .item i => i < items.length
  | _, _ => false

theorem hasSlot_of_child? {v w : Value} {b : Branch} (h : v.child? b = some w) :
    v.hasSlot b = true := by
  cases v <;> cases b <;> simp only [child?, reduceCtorEq] at h
  · simpa [hasSlot] using (List.getElem?_eq_some_iff.mp h).1
  · rfl

theorem child?_setChild_self {v : Value} {b : Branch} (h : v.hasSlot b = true) (new : Value) :
    (v.setChild b new).child? b = some new := by
  cases v <;> cases b <;> simp only [hasSlot, Bool.false_eq_true, decide_eq_true_eq] at h
  · simp [setChild, child?, h]
  · exact Members.lookup_set_self

theorem child?_setChild_ne {b c : Branch} (h : c ≠ b) (v new : Value) :
    (v.setChild b new).child? c = v.child? c := by
  cases v <;> cases b <;> try rfl
  · rename_i items i
    cases c with
    | member key => rfl
    | item j =>
      have : i ≠ j := fun he => h (by rw [he])
      simp [setChild, child?, this]
  · rename_i members key
    cases c with
    | item j => rfl
    | member other => exact Members.lookup_set_ne fun he => h (by rw [he])

theorem hasSlot_setChild (v : Value) (b c : Branch) (new : Value) :
    (v.setChild b new).hasSlot c = v.hasSlot c := by
  cases v <;> cases b <;> cases c <;> simp [setChild, hasSlot]

theorem setChild_setChild (v : Value) (b : Branch) (new newer : Value) :
    (v.setChild b new).setChild b newer = v.setChild b newer := by
  cases v <;> cases b <;> simp [setChild, Members.set_set]

theorem setChild_child? {v w : Value} {b : Branch} (h : v.child? b = some w) :
    v.setChild b w = v := by
  cases v <;> cases b <;> simp only [child?, reduceCtorEq] at h
  · obtain ⟨hlt, rfl⟩ := List.getElem?_eq_some_iff.mp h
    simp [setChild]
  · rw [setChild, Members.set_lookup h]

end Value

namespace Position

/-- What stands at a position. -/
def at? : Position → Value → Option Value
  | [], v => some v
  | b :: p, v => (v.child? b).bind (at? p)

/-- Gives a position a new value. Its last member may be new, all before it has to be there. -/
def setAt : Position → Value → Value → Value
  | [], new, _ => new
  | b :: p, new, v =>
    match v.child? b with
    | some w => v.setChild b (setAt p new w)
    | none => if p = [] then v.setChild b new else v

/-- A value can be put there. -/
def IsSlot : Position → Value → Prop
  | [], _ => True
  | b :: p, v =>
    match v.child? b with
    | some w => IsSlot p w
    | none => p = [] ∧ v.hasSlot b = true

/-- None of the two lies in the other. -/
def Apart (p q : Position) : Prop := ¬p <+: q ∧ ¬q <+: p

theorem Apart.symm {p q : Position} (h : Apart p q) : Apart q p := ⟨h.2, h.1⟩

theorem apart_cons_cons {b c : Branch} {p q : Position} :
    Apart (b :: p) (c :: q) ↔ b ≠ c ∨ Apart p q := by
  by_cases h : b = c
  · subst h
    simp [Apart]
  · simp [Apart, h, Ne.symm h]

theorem not_apart_nil {p : Position} : ¬Apart [] p := fun h => h.1 p.nil_prefix

theorem Apart.append_left (r : Position) {p q : Position} (h : Apart p q) :
    Apart (r ++ p) (r ++ q) := by
  simpa [Apart] using h

theorem at?_append (p q : Position) (v : Value) : at? (p ++ q) v = (at? p v).bind (at? q) := by
  induction p generalizing v with
  | nil => rfl
  | cons b p ih =>
    rw [List.cons_append, at?, at?]
    cases v.child? b with
    | none => rfl
    | some w => exact ih w

theorem setAt_cons_of_child? {b : Branch} {p : Position} {v w : Value} (h : v.child? b = some w)
    (new : Value) : setAt (b :: p) new v = v.setChild b (setAt p new w) := by
  rw [setAt, h]

theorem setAt_append {p : Position} {v w : Value} (h : at? p v = some w) (q : Position)
    (new : Value) : setAt (p ++ q) new v = setAt p (setAt q new w) v := by
  induction p generalizing v with
  | nil =>
    cases h
    rfl
  | cons b p ih =>
    obtain ⟨u, hu, h⟩ := Option.bind_eq_some_iff.mp h
    rw [List.cons_append, setAt_cons_of_child? hu, setAt_cons_of_child? hu, ih h]

/-- Putting back what stands at a position changes nothing. -/
theorem setAt_at? {p : Position} {v w : Value} (h : at? p v = some w) : setAt p w v = v := by
  induction p generalizing v with
  | nil =>
    cases h
    rfl
  | cons b p ih =>
    obtain ⟨u, hu, h⟩ := Option.bind_eq_some_iff.mp h
    rw [setAt_cons_of_child? hu, ih h, Value.setChild_child? hu]

theorem isSlot_of_at? {p : Position} {v w : Value} (h : at? p v = some w) : IsSlot p v := by
  induction p generalizing v with
  | nil => trivial
  | cons b p ih =>
    obtain ⟨u, hu, h⟩ := Option.bind_eq_some_iff.mp h
    rw [IsSlot, hu]
    exact ih h

theorem isSlot_append {p q : Position} {v w : Value} (h : at? p v = some w) (hq : IsSlot q w) :
    IsSlot (p ++ q) v := by
  induction p generalizing v with
  | nil =>
    cases h
    exact hq
  | cons b p ih =>
    obtain ⟨u, hu, h⟩ := Option.bind_eq_some_iff.mp h
    rw [List.cons_append, IsSlot, hu]
    exact ih h

theorem at?_setAt_self {p : Position} {v : Value} (h : IsSlot p v) (new : Value) :
    at? p (setAt p new v) = some new := by
  induction p generalizing v with
  | nil => rfl
  | cons b p ih =>
    cases hc : v.child? b with
    | some w =>
      rw [IsSlot, hc] at h
      rw [setAt_cons_of_child? hc, at?, Value.child?_setChild_self (Value.hasSlot_of_child? hc)]
      exact ih h
    | none =>
      rw [IsSlot, hc] at h
      obtain ⟨rfl, room⟩ := h
      rw [setAt, hc, at?]
      simp only [if_true, Value.child?_setChild_self room]
      rfl

/-- The later of two writes to one position wins. -/
theorem setAt_setAt {p : Position} {v : Value} (h : IsSlot p v) (new newer : Value) :
    setAt p newer (setAt p new v) = setAt p newer v := by
  induction p generalizing v with
  | nil => rfl
  | cons b p ih =>
    cases hc : v.child? b with
    | some w =>
      rw [IsSlot, hc] at h
      have room := Value.hasSlot_of_child? hc
      rw [setAt_cons_of_child? hc, setAt_cons_of_child? hc,
        setAt_cons_of_child? (Value.child?_setChild_self room _), Value.setChild_setChild, ih h]
    | none =>
      rw [IsSlot, hc] at h
      obtain ⟨rfl, room⟩ := h
      have once (u : Value) : setAt [b] u v = v.setChild b u := by simp [setAt, hc]
      rw [once, once, setAt_cons_of_child? (Value.child?_setChild_self room _),
        Value.setChild_setChild]
      rfl

/-- A write leaves every position apart from it as it was. -/
theorem at?_setAt_of_apart {p q : Position} (h : Apart p q) (new v : Value) :
    at? q (setAt p new v) = at? q v := by
  induction p generalizing q v with
  | nil => exact absurd h not_apart_nil
  | cons b p ih =>
    cases q with
    | nil => exact absurd h.symm not_apart_nil
    | cons c q =>
      cases hc : v.child? b with
      | some w =>
        rw [setAt_cons_of_child? hc, at?, at?]
        by_cases he : c = b
        · subst he
          have inner : Apart p q := (apart_cons_cons.mp h).resolve_left (by simp)
          rw [Value.child?_setChild_self (Value.hasSlot_of_child? hc), hc]
          exact ih inner w
        · rw [Value.child?_setChild_ne he]
      | none =>
        have untouched : c ≠ b → at? (c :: q) (v.setChild b new) = at? (c :: q) v := by
          intro he
          rw [at?, at?, Value.child?_setChild_ne he]
        rw [setAt, hc]
        by_cases hp : p = []
        · subst hp
          have : b ≠ c := (apart_cons_cons.mp h).resolve_right not_apart_nil
          simpa using untouched this.symm
        · simp [hp]

theorem isSlot_setAt_of_apart {p q : Position} (h : Apart p q) (new : Value) {v : Value}
    (hq : IsSlot q v) : IsSlot q (setAt p new v) := by
  induction p generalizing q v with
  | nil => exact absurd h not_apart_nil
  | cons b p ih =>
    cases q with
    | nil => trivial
    | cons c q =>
      have other (u : Value) (he : c ≠ b) : IsSlot (c :: q) (v.setChild b u) := by
        rw [IsSlot, Value.child?_setChild_ne he, Value.hasSlot_setChild]
        exact hq
      cases hc : v.child? b with
      | some w =>
        rw [setAt_cons_of_child? hc]
        by_cases he : c = b
        · subst he
          have inner : Apart p q := (apart_cons_cons.mp h).resolve_left (by simp)
          rw [IsSlot, hc] at hq
          rw [IsSlot, Value.child?_setChild_self (Value.hasSlot_of_child? hc)]
          exact ih inner hq
        · exact other _ he
      | none =>
        rw [setAt, hc]
        by_cases hp : p = []
        · subst hp
          have : b ≠ c := (apart_cons_cons.mp h).resolve_right not_apart_nil
          simpa using other new this.symm
        · simpa [hp] using hq

end Position

end DocumentPath
