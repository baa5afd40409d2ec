import DocumentPath.Plan

namespace DocumentPath

/-- What is written into a slot, given what is there. It may keep a state from slot to slot. -/
abbrev Mutator (σ : Type) := σ → Value → Value × σ

namespace Mutator

variable {σ : Type}

/-- Writes one value everywhere. -/
def const (v : Value) : Mutator σ := fun state _ => (v, state)

/-- Writes the image of what is there. -/
def pure (f : Value → Value) : Mutator σ := fun state v => (f v, state)

end Mutator

/-- How far writing got: the data and the state as they are then, and what stood in the way. -/
structure Outcome (σ α : Type) where
  data : α
  state : σ
  obstacle : Option Obstacle

variable {σ : Type}

/-- The outcome of one write. Where it is not possible nothing has changed. -/
def Outcome.ofWrite (data : Value) (state : σ) : Except Obstacle (Value × σ) → Outcome σ Value
  | .ok (data, state) => ⟨data, state, none⟩
  | .error obstacle => ⟨data, state, some obstacle⟩

/-- Writes into the slot that the last step names in its container. A member that is not there yet
is `null` before; an item has to be there. -/
def writeLast (mutator : Mutator σ) (key : String) (state : σ) :
    Value → Except Obstacle (Value × σ)
  | .object members =>
    let (new, state) := mutator state ((members.lookup key).getD .null)
    .ok (.object (Members.set key new members), state)
  | .array items =>
    match (Value.array items).get? key with
    | some old =>
      let (new, state) := mutator state old
      .ok ((Value.array items).put key new, state)
    | none => .error (.outOfBounds key items.length)
  | v => .error (.noContainer key v.kind)

/-- Writes into the slot that the steps lead to, all but the last through what is there. When the
slot cannot be reached nothing is written and the mutator is not asked. -/
def writeAt (mutator : Mutator σ) (state : σ) : Segment → Value → Except Obstacle (Value × σ)
  | [], v => .ok (mutator state v)
  | [last], v => writeLast mutator last.key state v
  | step :: next :: steps, v =>
    match v.get? step.key with
    | none => .error (.noMember step.key v.kind)
    | some w => do
      let (w, state) ← writeAt mutator state (next :: steps) w
      .ok (v.put step.key w, state)

/-- Writes from item to item and stops at the first obstacle. -/
def writeItems (write : σ → Value → Outcome σ Value) (state : σ) :
    List Value → Outcome σ (List Value)
  | [] => ⟨[], state, none⟩
  | item :: items =>
    let here := write state item
    match here.obstacle with
    | some obstacle => ⟨here.data :: items, here.state, some obstacle⟩
    | none =>
      let rest := writeItems write here.state items
      ⟨here.data :: rest.data, rest.state, rest.obstacle⟩

/-- Writes into the slots that some levels lead to below the items of an array. -/
def writeLevels (mutator : Mutator σ) (context : Value) :
    List Level → σ → List Value → Outcome σ (List Value)
  | [], state, items => ⟨items, state, none⟩
  | [level], state, items =>
    writeItems (fun state item =>
      if level.accepts context item then
        .ofWrite item state (writeAt mutator state level.continuation item)
      else ⟨item, state, none⟩) state items
  | level :: next :: deeper, state, items =>
    writeItems (fun state item =>
      if level.accepts context item then
        match Segment.items? level.continuation item with
        | some inner =>
          let below := writeLevels mutator context (next :: deeper) state inner
          ⟨Segment.put level.continuation (.array below.data) item, below.state, below.obstacle⟩
        | none => ⟨item, state, none⟩
      else ⟨item, state, none⟩) state items

namespace Plan

/-- Writes into every slot of a plan, in order, up to the first that cannot be reached. What was
written before it stays. -/
def write (plan : Plan) (mutator : Mutator σ) (state : σ) (data context : Value) :
    Outcome σ Value :=
  if plan.isIterating then
    match Segment.items? plan.start data with
    | none => ⟨data, state, none⟩
    | some items =>
      let below := writeLevels mutator context plan.levels state items
      ⟨Segment.put plan.start (.array below.data) data, below.state, below.obstacle⟩
  else .ofWrite data state (writeAt mutator state plan.start data)

/-- The fault that an obstacle on the way of a plan is. -/
def fault (plan : Plan) (obstacle : Obstacle) : Error := .unaddressable plan.path obstacle

/-- The data after writing; there is none unless every slot was reached. -/
def written (plan : Plan) (mutator : Mutator σ) (state : σ) (data context : Value) :
    Except Error Value :=
  let outcome := plan.write mutator state data context
  match outcome.obstacle with
  | none => .ok outcome.data
  | some obstacle => .error (plan.fault obstacle)

end Plan

end DocumentPath
