import DocumentPath.Proofs.Traversal.Indices
import DocumentPath.Proofs.Writing.Agreement

namespace DocumentPath

variable {σ : Type} {context : Value}

/-- Writes through segments one after the other, up to the first that meets an obstacle. -/
def writeRoutes (mutator : Mutator σ) (state : σ) (v : Value) : List Segment → Outcome σ Value
  | [] => ⟨v, state, none⟩
  | route :: routes =>
    match writeAt mutator state route v with
    | .error obstacle => ⟨v, state, some obstacle⟩
    | .ok (v, state) => writeRoutes mutator state v routes

/-- Writing behind steps that lead to a slot is writing in that slot alone. -/
theorem writeAt_append (mutator : Mutator σ) (state : σ) {front : Segment} {v w : Value}
    (h : Segment.get? front v = some w) (route : Segment) :
    writeAt mutator state (front ++ route) v =
      (writeAt mutator state route w).map fun new => (Segment.put front new.1 v, new.2) := by
  induction front generalizing v with
  | nil =>
    cases h
    rw [List.nil_append]
    cases writeAt mutator state route w <;> rfl
  | cons step steps ih =>
    obtain ⟨u, hu, h⟩ := Option.bind_eq_some_iff.mp h
    cases hr : steps ++ route with
    | cons next rest =>
      have inner := ih h
      rw [hr] at inner
      rw [List.cons_append, hr, writeAt, hu]
      simp only [inner, Segment.put, hu]
      cases writeAt mutator state route w <;> rfl
    | nil =>
      obtain ⟨rfl, rfl⟩ := List.append_eq_nil_iff.mp hr
      cases h
      cases v with
      | object members =>
        have found : members.lookup step.key = some w := hu
        simp [writeAt, writeLast, Segment.put, Value.get?, Value.put, found, Except.map,
          Members.set_of_lookup]
      | array items => simp [writeAt, writeLast, Segment.put, hu, Except.map]
      | _ => cases hu

theorem writeRoutes_below (mutator : Mutator σ) (state : σ) {front : Segment} {v w : Value}
    (h : Segment.get? front v = some w) (routes : List Segment) :
    writeRoutes mutator state v (routes.map (front ++ ·)) =
      (writeRoutes mutator state w routes).map fun new => Segment.put front new v := by
  induction routes generalizing state v w with
  | nil => simp [writeRoutes, Outcome.map, Segment.put_get? h]
  | cons route routes ih =>
    rw [List.map_cons, writeRoutes, writeRoutes, writeAt_append mutator state h]
    cases hw : writeAt mutator state route w with
    | error obstacle => simp [Except.map, Outcome.map, Segment.put_get? h]
    | ok written =>
      have later := ih written.2 (Segment.get?_put h written.1)
      simp only [Segment.put_put h] at later
      exact later

theorem writeRoutes_append (mutator : Mutator σ) (state : σ) (v : Value)
    (routes more : List Segment) :
    writeRoutes mutator state v (routes ++ more) =
      match (writeRoutes mutator state v routes).obstacle with
      | some _ => writeRoutes mutator state v routes
      | none => writeRoutes mutator (writeRoutes mutator state v routes).state
          (writeRoutes mutator state v routes).data more := by
  induction routes generalizing state v with
  | nil => rfl
  | cons route routes ih =>
    rw [List.cons_append, writeRoutes, writeRoutes]
    cases writeAt mutator state route v with
    | error obstacle => rfl
    | ok written => exact ih _ _

/-- Writing from item to item goes through the routes of all items. -/
theorem writeRoutes_items {mutator : Mutator σ} {write : σ → Value → Outcome σ Value}
    {routes : Value → List Segment}
    (h : ∀ state item, write state item = writeRoutes mutator state item (routes item)) (state : σ)
    (done items : List Value) :
    writeRoutes mutator state (.array (done ++ items))
        ((items.zipIdx done.length).flatMap fun (item, i) =>
          (routes item).map ([Step.item i] ++ ·)) =
      (writeItems write state items).map fun items => .array (done ++ items) := by
  -- the items in `done` have been written, so the others keep their indices
  induction items generalizing state done with
  | nil => rfl
  | cons item items ih =>
    have here : Segment.get? [Step.item done.length] (.array (done ++ item :: items)) =
        some item := by
      simp [Segment.get?, Value.get?_item]
    have placed (new : Value) : Segment.put [Step.item done.length] new
        (.array (done ++ item :: items)) = .array (done ++ new :: items) := by
      have found : (Value.array (done ++ item :: items)).get? (Step.item done.length).key =
          some item := by
        simp [Value.get?_item]
      simp only [Segment.put, found, Value.put_item]
      simp
    have first := writeRoutes_below mutator state here (routes item)
    rw [← h] at first
    have rest := ih (write state item).state (done ++ [(write state item).data])
    rw [List.length_append, List.length_singleton, List.append_assoc, List.singleton_append] at rest
    rw [List.zipIdx_cons, List.flatMap_cons, writeRoutes_append, first, writeItems]
    simp only [Outcome.map, placed]
    cases (write state item).obstacle with
    | some obstacle => rfl
    | none =>
      refine rest.trans ?_
      simp [Outcome.map]

/-- The steps from an array on to each of its matches. -/
def routes (context : Value) (levels : List Level) (items : List Value) : List Segment :=
  (indicesFrom context levels items).map (Segment.through levels)

/-- The steps from one item of a level on. -/
def itemRoutes (context : Value) (level : Level) (deeper : List Level) (item : Value) :
    List Segment :=
  if level.accepts context item then
    if deeper.isEmpty then [level.continuation]
    else (((Segment.items? level.continuation item).map (routes context deeper)).getD []).map
      (level.continuation ++ ·)
  else []

theorem routes_cons (context : Value) (level : Level) (deeper : List Level) (items : List Value) :
    routes context (level :: deeper) items =
      items.zipIdx.flatMap fun (item, i) =>
        (itemRoutes context level deeper item).map ([Step.item i] ++ ·) := by
  rw [routes, indicesFrom_cons, List.map_flatMap]
  apply List.flatMap_congr
  rintro ⟨item, i⟩ _
  show _ = (itemRoutes context level deeper item).map ([Step.item i] ++ ·)
  by_cases accepted : level.accepts context item = true
  · by_cases hd : deeper = []
    · subst hd
      simp [itemIndices_last accepted, itemRoutes, accepted, Segment.through]
    · have inner : deeper.isEmpty = false := by simpa using hd
      rw [itemIndices_inner accepted hd, itemRoutes, if_pos accepted, inner]
      cases Segment.items? level.continuation item with
      | none => rfl
      | some items => simp [routes, Segment.through, Function.comp_def]
  · simp [itemIndices_of_not_accepts accepted, itemRoutes, accepted]

/-- Writing level by level is writing through the routes one by one. -/
theorem writeLevels_eq_writeRoutes (mutator : Mutator σ) (levels : List Level) (state : σ)
    (items : List Value) :
    writeRoutes mutator state (.array items) (routes context levels items) =
      (writeLevels mutator context levels state items).map .array := by
  induction levels generalizing state items with
  | nil => rfl
  | cons level deeper ih =>
    rw [routes_cons]
    cases deeper with
    | nil =>
      refine writeRoutes_items ?_ state [] items
      intro state item
      rw [itemRoutes]
      split
      · simp only [List.isEmpty_nil, if_true, writeRoutes]
        cases writeAt mutator state level.continuation item <;> rfl
      · rfl
    | cons next deeper =>
      refine writeRoutes_items ?_ state [] items
      intro state item
      by_cases accepted : level.accepts context item = true
      · simp only [itemRoutes, if_pos accepted, List.isEmpty_cons, Bool.false_eq_true, if_false]
        cases hi : Segment.items? level.continuation item with
        | none => rfl
        | some inner =>
          have deep := writeRoutes_below mutator state (Segment.get?_of_items? hi)
            (routes context (next :: deeper) inner)
          rw [ih] at deep
          exact deep.symm
      · simp only [itemRoutes, if_neg accepted]
        rfl

/-- Writes through plans one after the other, up to the first that meets an obstacle. -/
def writeEach (mutator : Mutator σ) (context : Value) (state : σ) (data : Value) :
    List Plan → Outcome σ Value
  | [] => ⟨data, state, none⟩
  | plan :: plans =>
    let here := plan.write mutator state data context
    match here.obstacle with
    | some _ => here
    | none => writeEach mutator context here.state here.data plans

theorem writeEach_eq_writeRoutes (mutator : Mutator σ) (state : σ) (data : Value) (path : String)
    (segments : List Segment) :
    writeEach mutator context state data (segments.map fun segment => ⟨path, segment, []⟩) =
      writeRoutes mutator state data segments := by
  induction segments generalizing state data with
  | nil => rfl
  | cons segment segments ih =>
    rw [List.map_cons, writeEach, writeRoutes]
    simp only [Plan.write, Plan.isIterating, List.isEmpty_nil, Bool.not_true, Bool.false_eq_true,
      if_false]
    cases writeAt mutator state segment data with
    | error obstacle => rfl
    | ok written => exact ih _ _

namespace Plan

/-- Writing through a plan with wildcards is writing through its concrete plans in turn. -/
theorem write_eq_writeEach {plan : Plan} (h : plan.isIterating = true) (mutator : Mutator σ)
    (state : σ) (data context : Value) :
    plan.write mutator state data context =
      writeEach mutator context state data ((plan.indices data context).map plan.concrete) := by
  have segments (all : List (List Nat)) : all.map plan.concrete =
      ((all.map (Segment.through plan.levels)).map (plan.start ++ ·)).map fun segment =>
        (⟨plan.path, segment, []⟩ : Plan) := by
    simp [Plan.concrete, Function.comp_def]
  rw [segments, writeEach_eq_writeRoutes, write, if_pos h]
  cases hi : Segment.items? plan.start data with
  | none =>
    rw [indices_of_no_items hi]
    rfl
  | some items =>
    have below := writeRoutes_below mutator state (Segment.get?_of_items? hi)
      (routes context plan.levels items)
    rw [writeLevels_eq_writeRoutes] at below
    rw [indices_of_items? hi]
    exact below.symm

end Plan

end DocumentPath
