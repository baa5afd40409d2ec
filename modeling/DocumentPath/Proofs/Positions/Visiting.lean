import DocumentPath.Proofs.Positions.Position
import DocumentPath.Writing

namespace DocumentPath

variable {σ α β : Type}

/-- A position to write to, or what stands in the way. -/
abbrev Target := Except Obstacle Position

def Target.below (p : Position) (target : Target) : Target := target.map (p ++ ·)

def Outcome.map (f : α → β) (outcome : Outcome σ α) : Outcome σ β :=
  ⟨f outcome.data, outcome.state, outcome.obstacle⟩

def Mutator.writeTo (mutator : Mutator σ) (state : σ) (p : Position) (v : Value) : Value × σ :=
  let answer := mutator state ((Position.at? p v).getD .null)
  (Position.setAt p answer.1 v, answer.2)

/-- Writes to targets one after the other, up to the first that cannot be reached. -/
def visit (mutator : Mutator σ) (state : σ) (data : Value) : List Target → Outcome σ Value
  | [] => ⟨data, state, none⟩
  | .error obstacle :: _ => ⟨data, state, some obstacle⟩
  | .ok p :: targets =>
    visit mutator (mutator.writeTo state p data).2 (mutator.writeTo state p data).1 targets

theorem visit_append (mutator : Mutator σ) (state : σ) (data : Value) (ts us : List Target) :
    visit mutator state data (ts ++ us) =
      match (visit mutator state data ts).obstacle with
      | some _ => visit mutator state data ts
      | none => visit mutator (visit mutator state data ts).state
          (visit mutator state data ts).data us := by
  induction ts generalizing state data with
  | nil => rfl
  | cons t ts ih =>
    cases t with
    | error obstacle => rfl
    | ok p => exact ih _ _

/-- Targets that lie in one value are written to in that value alone. -/
theorem visit_below (mutator : Mutator σ) (state : σ) {data w : Value} {q : Position}
    (h : Position.at? q data = some w) (ts : List Target) :
    visit mutator state data (ts.map (Target.below q)) =
      (visit mutator state w ts).map fun new => Position.setAt q new data := by
  induction ts generalizing state data w with
  | nil =>
    rw [List.map_nil, visit, visit, Outcome.map, Position.setAt_at? h]
  | cons t ts ih =>
    cases t with
    | error obstacle =>
      have stopped : (visit mutator state w (.error obstacle :: ts)).map
          (fun new => Position.setAt q new data) =
            ⟨Position.setAt q w data, state, some obstacle⟩ := rfl
      rw [stopped, Position.setAt_at? h]
      rfl
    | ok p =>
      have slot := Position.isSlot_of_at? h
      have first : mutator.writeTo state (q ++ p) data =
          (Position.setAt q (mutator.writeTo state p w).1 data, (mutator.writeTo state p w).2) := by
        simp only [Mutator.writeTo, Position.at?_append, h, Option.bind_some,
          Position.setAt_append h]
      have inner := Position.at?_setAt_self slot (mutator.writeTo state p w).1
      change visit mutator (mutator.writeTo state (q ++ p) data).2
        (mutator.writeTo state (q ++ p) data).1 (ts.map (Target.below q)) = _
      rw [first, ih _ inner]
      simp only [Outcome.map, Position.setAt_setAt slot]
      rfl

/-- The targets of each item of an array, in order. -/
def itemTargets (targets : Value → List Target) (start : Nat) (items : List Value) : List Target :=
  (items.zipIdx start).flatMap fun (item, i) => (targets item).map (Target.below [.item i])

theorem at?_item {items : List Value} {item : Value} {i : Nat} (h : (item, i) ∈ items.zipIdx) :
    Position.at? [.item i] (.array items) = some item := by
  simp [Position.at?, Value.child?, List.mem_zipIdx_iff_getElem?.mp h]

/-- Writing from item to item comes to the targets of all items. -/
theorem visit_itemTargets {mutator : Mutator σ} {write : σ → Value → Outcome σ Value}
    {targets : Value → List Target}
    (h : ∀ state item, write state item = visit mutator state item (targets item)) (state : σ)
    (done items : List Value) :
    visit mutator state (.array (done ++ items)) (itemTargets targets done.length items) =
      (writeItems write state items).map fun items => .array (done ++ items) := by
  -- the items in `done` have been written, so the targets of the others keep their places
  induction items generalizing state done with
  | nil => rfl
  | cons item items ih =>
    have here : Position.at? [.item done.length] (.array (done ++ item :: items)) = some item := by
      simp [Position.at?, Value.child?]
    have placed (new : Value) : Position.setAt [.item done.length] new
        (.array (done ++ item :: items)) = .array (done ++ new :: items) := by
      simp [Position.setAt, Value.child?, Value.setChild]
    have first := visit_below mutator state here (targets item)
    rw [← h] at first
    have rest := ih (write state item).state (done ++ [(write state item).data])
    rw [List.length_append, List.length_singleton, List.append_assoc, List.singleton_append] at rest
    rw [itemTargets, List.zipIdx_cons, List.flatMap_cons, visit_append, first, writeItems]
    simp only [Outcome.map, placed]
    cases (write state item).obstacle with
    | some obstacle => rfl
    | none =>
      refine rest.trans ?_
      simp [Outcome.map]

theorem obstacle_visit {mutator : Mutator σ} {state : σ} {data : Value} {ts : List Target}
    (h : (visit mutator state data ts).obstacle = none) :
    ∃ slots : List Position, ts = slots.map .ok := by
  induction ts generalizing state data with
  | nil => exact ⟨[], rfl⟩
  | cons t ts ih =>
    cases t with
    | error obstacle => cases h
    | ok p =>
      obtain ⟨slots, rfl⟩ := ih h
      exact ⟨p :: slots, rfl⟩

def Mutator.feed (mutator : Mutator σ) (state : σ) : List Value → List Value × σ
  | [] => ([], state)
  | v :: vs =>
    let answer := mutator state v
    let rest := feed mutator answer.2 vs
    (answer.1 :: rest.1, rest.2)

theorem Mutator.length_feed (mutator : Mutator σ) (state : σ) (vs : List Value) :
    (mutator.feed state vs).1.length = vs.length := by
  induction vs generalizing state with
  | nil => rfl
  | cons v vs ih => exact congrArg (· + 1) (ih _)

/-- Gives positions new values, the first position the first value. -/
def fill (data : Value) : List Position → List Value → Value
  | [], _ => data
  | _ :: _, [] => data
  | p :: ps, v :: vs => fill (Position.setAt p v data) ps vs

/-- Writing to positions that lie apart asks for a new value of what stood there from the
beginning. -/
theorem visit_slots {slots : List Position} (apart : slots.Pairwise Position.Apart)
    (mutator : Mutator σ) (state : σ) (data : Value) :
    visit mutator state data (slots.map .ok) =
      let answers := mutator.feed state (slots.map fun p => (Position.at? p data).getD .null)
      ⟨fill data slots answers.1, answers.2, none⟩ := by
  induction slots generalizing state data with
  | nil => rfl
  | cons p slots ih =>
    obtain ⟨first, rest⟩ := List.pairwise_cons.mp apart
    let answer := mutator state ((Position.at? p data).getD .null)
    -- the first write leaves what the later ones are asked about
    have untouched :
        slots.map (fun q => (Position.at? q (Position.setAt p answer.1 data)).getD .null) =
          slots.map fun q => (Position.at? q data).getD .null := by
      apply List.map_congr_left
      intro q hq
      rw [Position.at?_setAt_of_apart (first q hq)]
    have later := ih rest answer.2 (Position.setAt p answer.1 data)
    rw [untouched] at later
    exact later

theorem at?_fill_of_apart {q : Position} {slots : List Position}
    (h : ∀ p ∈ slots, Position.Apart p q) (data : Value) (vs : List Value) :
    Position.at? q (fill data slots vs) = Position.at? q data := by
  induction slots generalizing data vs with
  | nil => rw [fill]
  | cons p slots ih =>
    cases vs with
    | nil => rw [fill]
    | cons v vs =>
      rw [fill, ih (fun p hp => h p (by simp [hp])), Position.at?_setAt_of_apart (h p (by simp))]

/-- Every position that was filled has its new value in the end. -/
theorem at?_fill {slots : List Position} (apart : slots.Pairwise Position.Apart) {data : Value}
    (room : ∀ p ∈ slots, Position.IsSlot p data) (vs : List Value) :
    ∀ entry ∈ slots.zip vs, Position.at? entry.1 (fill data slots vs) = some entry.2 := by
  induction slots generalizing data vs with
  | nil => simp
  | cons p slots ih =>
    obtain ⟨first, rest⟩ := List.pairwise_cons.mp apart
    cases vs with
    | nil => simp
    | cons v vs =>
      intro entry hentry
      rcases List.mem_cons.mp hentry with rfl | hentry
      · rw [fill, at?_fill_of_apart fun q hq => (first q hq).symm]
        exact Position.at?_setAt_self (room p (by simp)) v
      · refine ih rest (fun q hq => ?_) vs entry hentry
        exact Position.isSlot_setAt_of_apart (first q hq) v (room q (by simp [hq]))

end DocumentPath
