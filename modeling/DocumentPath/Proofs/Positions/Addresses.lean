import DocumentPath.Proofs.Positions.Visiting
import DocumentPath.Proofs.Traversal.Matches

namespace DocumentPath

namespace Value

/-- The child that a key names, with the branch to it. -/
def locate? (v : Value) (key : String) : Option (Branch × Value) :=
  match v with
  | .object members => (members.lookup key).map fun w => (.member key, w)
  | .array items =>
    (Text.readIndex? key.toList).bind fun i => items[i]?.map fun w => (.item i, w)
  | _ => none

theorem get?_eq_locate? (v : Value) (key : String) :
    v.get? key = (v.locate? key).map Prod.snd := by
  cases v with
  | object members => simp [get?, locate?, Function.comp_def]
  | array items =>
    cases h : Text.readIndex? key.toList <;> simp [get?, locate?, h, Function.comp_def]
  | _ => rfl

theorem get?_of_locate? {v w : Value} {key : String} {b : Branch}
    (h : v.locate? key = some (b, w)) : v.get? key = some w := by
  rw [get?_eq_locate?, h]
  rfl

theorem child?_of_locate? {v w : Value} {key : String} {b : Branch}
    (h : v.locate? key = some (b, w)) : v.child? b = some w := by
  cases v with
  | object members =>
    obtain ⟨u, hu, he⟩ := Option.map_eq_some_iff.mp h
    cases he
    exact hu
  | array items =>
    obtain ⟨i, _, h⟩ := Option.bind_eq_some_iff.mp h
    obtain ⟨u, hu, he⟩ := Option.map_eq_some_iff.mp h
    cases he
    exact hu
  | _ => cases h

theorem put_of_locate? {v w : Value} {key : String} {b : Branch}
    (h : v.locate? key = some (b, w)) (new : Value) : v.put key new = v.setChild b new := by
  cases v with
  | object members =>
    obtain ⟨u, hu, he⟩ := Option.map_eq_some_iff.mp h
    cases he
    rw [put, setChild, Members.set_of_lookup (by simp [hu])]
  | array items =>
    obtain ⟨i, hi, h⟩ := Option.bind_eq_some_iff.mp h
    obtain ⟨u, hu, he⟩ := Option.map_eq_some_iff.mp h
    cases he
    simp [put, setChild, hi]
  | _ => cases h

/-- The slot that a key names in a container; a member may be new. -/
def lastTarget (v : Value) (key : String) : Target :=
  match v with
  | .object _ => .ok [.member key]
  | .array items =>
    match (Value.array items).locate? key with
    | some (b, _) => .ok [b]
    | none => .error (.outOfBounds key items.length)
  | v => .error (.noContainer key v.kind)

end Value

namespace Segment

/-- The position that the steps lead to. -/
def position? : Segment → Value → Option Position
  | [], _ => some []
  | step :: steps, v =>
    (v.locate? step.key).bind fun (b, w) => (position? steps w).map (b :: ·)

theorem position?_cons {step : Step} {v w : Value} {b : Branch}
    (h : v.locate? step.key = some (b, w)) (steps : Segment) :
    position? (step :: steps) v = (position? steps w).map (b :: ·) := by
  rw [position?, h]
  rfl

theorem get?_eq_position? (segment : Segment) (v : Value) :
    get? segment v = (position? segment v).bind fun p => Position.at? p v := by
  induction segment generalizing v with
  | nil => rfl
  | cons step steps ih =>
    cases hl : v.locate? step.key with
    | none => simp [get?, position?, Value.get?_eq_locate?, hl]
    | some found =>
      obtain ⟨b, w⟩ := found
      have hc := Value.child?_of_locate? hl
      rw [get?, position?_cons hl, Value.get?_of_locate? hl, Option.bind_some, ih]
      cases position? steps w with
      | none => rfl
      | some p => simp [Position.at?, hc]

theorem put_of_position? {segment : Segment} {v : Value} {p : Position}
    (h : position? segment v = some p) (new : Value) :
    put segment new v = Position.setAt p new v := by
  induction segment generalizing v p with
  | nil =>
    cases h
    rfl
  | cons step steps ih =>
    obtain ⟨⟨b, w⟩, hl, h⟩ := Option.bind_eq_some_iff.mp h
    obtain ⟨q, hq, rfl⟩ := Option.map_eq_some_iff.mp h
    simp only [put, Value.get?_of_locate? hl]
    rw [Position.setAt_cons_of_child? (Value.child?_of_locate? hl), ← ih hq]
    exact Value.put_of_locate? hl _

/-- The array that the steps lead to, with its position. -/
def arrayAt? (segment : Segment) (v : Value) : Option (Position × List Value) :=
  (position? segment v).bind fun p =>
    ((Position.at? p v).bind Value.items?).map fun items => (p, items)

theorem items?_eq_arrayAt? (segment : Segment) (v : Value) :
    items? segment v = (arrayAt? segment v).map Prod.snd := by
  rw [items?, get?_eq_position?, arrayAt?]
  cases position? segment v with
  | none => rfl
  | some p => simp [Function.comp_def]

theorem at?_of_arrayAt? {segment : Segment} {v : Value} {p : Position} {items : List Value}
    (h : arrayAt? segment v = some (p, items)) : Position.at? p v = some (.array items) := by
  obtain ⟨q, _, h⟩ := Option.bind_eq_some_iff.mp h
  obtain ⟨items', h, he⟩ := Option.map_eq_some_iff.mp h
  cases he
  obtain ⟨w, hw, h⟩ := Option.bind_eq_some_iff.mp h
  rw [hw, Value.items?_eq_some_iff.mp h]

theorem position?_of_arrayAt? {segment : Segment} {v : Value} {p : Position} {items : List Value}
    (h : arrayAt? segment v = some (p, items)) : position? segment v = some p := by
  obtain ⟨q, hq, h⟩ := Option.bind_eq_some_iff.mp h
  obtain ⟨items', _, he⟩ := Option.map_eq_some_iff.mp h
  cases he
  exact hq

theorem put_of_arrayAt? {segment : Segment} {v : Value} {p : Position} {items : List Value}
    (h : arrayAt? segment v = some (p, items)) (new : Value) :
    put segment new v = Position.setAt p new v :=
  put_of_position? (position?_of_arrayAt? h) new

/-- Where writing through the steps ends up. -/
def target : Segment → Value → Target
  | [], _ => .ok []
  | [last], v => v.lastTarget last.key
  | step :: next :: steps, v =>
    match v.locate? step.key with
    | none => .error (.noMember step.key v.kind)
    | some (b, w) => (target (next :: steps) w).below [b]

theorem target_cons_of_locate? {step : Step} {v w : Value} {b : Branch}
    (h : v.locate? step.key = some (b, w)) (steps : Segment) :
    target (step :: steps) v = (target steps w).below [b] := by
  cases steps with
  | cons next steps => simp only [target, h]
  | nil =>
    cases v with
    | object members =>
      obtain ⟨u, _, he⟩ := Option.map_eq_some_iff.mp h
      cases he
      rfl
    | array items =>
      simp only [target, Value.lastTarget, h]
      rfl
    | _ => cases h

end Segment

variable {σ : Type}

theorem writeLast_eq (mutator : Mutator σ) (key : String) (state : σ) (v : Value) :
    writeLast mutator key state v =
      (v.lastTarget key).map fun p => mutator.writeTo state p v := by
  cases v with
  | object members =>
    cases hl : members.lookup key <;>
      simp [writeLast, Value.lastTarget, Except.map, Mutator.writeTo, Position.at?, Position.setAt,
        Value.child?, Value.setChild, hl]
  | array items =>
    cases hl : (Value.array items).locate? key with
    | none => simp [writeLast, Value.lastTarget, Value.get?_eq_locate?, hl, Except.map]
    | some found =>
      obtain ⟨b, w⟩ := found
      have hc := Value.child?_of_locate? hl
      simp [writeLast, Value.lastTarget, Value.get?_of_locate? hl, hl, Except.map, Mutator.writeTo,
        Position.at?, Position.setAt, hc, Value.put_of_locate? hl]
  | _ => rfl

/-- Writing through steps writes to their target, or meets what stands in its way. -/
theorem writeAt_eq (mutator : Mutator σ) (state : σ) (segment : Segment) (v : Value) :
    writeAt mutator state segment v =
      (segment.target v).map fun p => mutator.writeTo state p v := by
  induction segment generalizing v with
  | nil => rfl
  | cons step steps ih =>
    cases steps with
    | nil => exact writeLast_eq mutator step.key state v
    | cons next steps =>
      cases hl : v.locate? step.key with
      | none => simp [writeAt, Segment.target, Value.get?_eq_locate?, hl, Except.map]
      | some found =>
        obtain ⟨b, w⟩ := found
        have hc := Value.child?_of_locate? hl
        rw [Segment.target_cons_of_locate? hl]
        simp only [writeAt, Value.get?_of_locate? hl, ih]
        cases Segment.target (next :: steps) w with
        | error obstacle => rfl
        | ok p =>
          simp [Except.map, Target.below, Mutator.writeTo, Position.at?, hc,
            Position.setAt_cons_of_child? hc, Value.put_of_locate? hl, bind, Except.bind]

end DocumentPath
