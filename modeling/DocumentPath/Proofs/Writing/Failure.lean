import DocumentPath.Proofs.Writing.Sequence

namespace DocumentPath

variable {σ : Type} {context : Value}

namespace Segment

/-- Steps behind others end up where they do from the place that those lead to. -/
theorem target_append {front : Segment} {v w : Value} {p : Position}
    (hp : position? front v = some p) (hw : Position.at? p v = some w) (route : Segment) :
    target (front ++ route) v = (target route w).below p := by
  induction front generalizing v p with
  | nil =>
    cases hp
    cases hw
    rw [List.nil_append]
    cases target route w <;> rfl
  | cons step steps ih =>
    obtain ⟨⟨b, u⟩, hl, hp⟩ := Option.bind_eq_some_iff.mp hp
    obtain ⟨q, hq, rfl⟩ := Option.map_eq_some_iff.mp hp
    have inner : Position.at? q u = some w := by
      rwa [Position.at?, Value.child?_of_locate? hl] at hw
    rw [List.cons_append, target_cons_of_locate? hl, ih hq inner]
    cases target route w <;> rfl

theorem target_item {items : List Value} {item : Value} {i : Nat} (h : items[i]? = some item)
    (route : Segment) :
    target ([Step.item i] ++ route) (.array items) = (target route item).below [.item i] := by
  apply target_append
  · simp [position?, Value.locate?, Step.key_item, Text.readIndex?_decimal, h]
  · simpa [Position.at?, Value.child?] using h

end Segment

theorem itemTargets_target (routes : Value → List Segment) (items : List Value) :
    itemTargets (fun item => (routes item).map fun route => Segment.target route item) 0 items =
      (items.zipIdx.flatMap fun (item, i) => (routes item).map ([Step.item i] ++ ·)).map
        fun route => Segment.target route (.array items) := by
  rw [itemTargets, List.map_flatMap]
  apply List.flatMap_congr
  rintro ⟨item, i⟩ hmem
  have hitem : items[i]? = some item := List.mem_zipIdx_iff_getElem?.mp hmem
  simp only [List.map_map, Function.comp_def, Segment.target_item hitem]

/-- The targets below an array are those of the routes through it. -/
theorem addresses_eq_routes (levels : List Level) (items : List Value) :
    addresses context (slotTargets context) levels items =
      (routes context levels items).map fun route => Segment.target route (.array items) := by
  induction levels generalizing items with
  | nil => rfl
  | cons level deeper ih =>
    rw [routes_cons, ← itemTargets_target]
    by_cases hd : deeper = []
    · subst hd
      rw [addresses_last, slotTargets]
      congr 1
      funext item
      by_cases accepted : level.accepts context item = true <;> simp [itemRoutes, accepted]
    · have inner : deeper.isEmpty = false := by simpa using hd
      rw [addresses_inner hd]
      congr 1
      funext item
      by_cases accepted : level.accepts context item = true
      · rw [innerTargets, if_pos accepted, itemRoutes, if_pos accepted, inner,
          Segment.items?_eq_arrayAt?]
        cases ha : Segment.arrayAt? level.continuation item with
        | none => rfl
        | some found =>
          obtain ⟨p, items⟩ := found
          have below := Segment.target_append (Segment.position?_of_arrayAt? ha)
            (Segment.at?_of_arrayAt? ha)
          simp [ih, below, Function.comp_def]
      · rw [innerTargets, if_neg accepted, itemRoutes, if_neg accepted]
        rfl

namespace Plan

/-- The targets of a plan with wildcards are those of its concrete plans. -/
theorem targets_eq_concrete {plan : Plan} (h : plan.isIterating = true) (data context : Value) :
    plan.targets data context =
      (plan.indices data context).map fun indices => (plan.concrete indices).start.target data := by
  rw [targets, if_pos h]
  cases ha : Segment.arrayAt? plan.start data with
  | none =>
    rw [indices_of_no_items (by rw [Segment.items?_eq_arrayAt?, ha]; rfl)]
    rfl
  | some found =>
    obtain ⟨p, items⟩ := found
    have below := Segment.target_append (Segment.position?_of_arrayAt? ha)
      (Segment.at?_of_arrayAt? ha)
    rw [indices_of_items? (by rw [Segment.items?_eq_arrayAt?, ha]; rfl)]
    simp [addresses_eq_routes, routes, concrete, below, Function.comp_def]

end Plan

/-- Writing that meets an obstacle has come to all targets before the first that cannot be
reached. -/
theorem exists_of_obstacle_visit {mutator : Mutator σ} {state : σ} {data : Value}
    {ts : List Target} {obstacle : Obstacle}
    (h : (visit mutator state data ts).obstacle = some obstacle) :
    ∃ (slots : List Position) (rest : List Target), ts = slots.map .ok ++ .error obstacle :: rest := by
  induction ts generalizing state data with
  | nil => cases h
  | cons t ts ih =>
    cases t with
    | error other =>
      cases h
      exact ⟨[], ts, rfl⟩
    | ok p =>
      obtain ⟨slots, rest, rfl⟩ := ih h
      exact ⟨p :: slots, rest, rfl⟩

/-- What is behind an obstacle plays no part. -/
theorem visit_stopped {slots : List Position} (apart : slots.Pairwise Position.Apart)
    (mutator : Mutator σ) (state : σ) (data : Value) (obstacle : Obstacle) (rest : List Target) :
    visit mutator state data (slots.map .ok ++ .error obstacle :: rest) =
      let answers := mutator.feed state (slots.map fun p => (Position.at? p data).getD .null)
      ⟨fill data slots answers.1, answers.2, some obstacle⟩ := by
  rw [visit_append, visit_slots apart]
  rfl

namespace Plan

theorem targets_concrete (plan : Plan) (indices : List Nat) (data context : Value) :
    (plan.concrete indices).targets data context = [(plan.concrete indices).start.target data] :=
  rfl

/-- A concrete plan addresses a slot of some container. -/
theorem start_concrete_ne_nil {plan : Plan} {data : Value} {indices : List Nat} {found : Match}
    (h : plan.Leads data indices found) : (plan.concrete indices).start ≠ [] := by
  obtain ⟨_, last, _, steps, route, _⟩ := h
  rw [concrete, route]
  simp

/-- Writing that stops has come to targets apart from each other, whatever the mutator. -/
theorem write_stopped {plan : Plan} {mutator : Mutator σ} {state : σ} {data : Value}
    {obstacle : Obstacle} (met : (plan.write mutator state data context).obstacle = some obstacle) :
    ∃ (slots : List Position) (rest : List Target),
      plan.targets data context = slots.map .ok ++ .error obstacle :: rest ∧
      slots.Pairwise Position.Apart ∧ (∀ p ∈ slots, Position.IsSlot p data) ∧
      let old := (plan.found data context).take slots.length
      slots.map (fun p => (Position.at? p data).getD .null) = old ∧
      ∀ {τ : Type} (mutator : Mutator τ) (state : τ), plan.write mutator state data context =
        ⟨fill data slots (mutator.feed state old).1, (mutator.feed state old).2, some obstacle⟩ := by
  rw [write_eq_visit] at met
  obtain ⟨slots, rest, reaching⟩ := exists_of_obstacle_visit met
  have apart : slots.Pairwise Position.Apart := by
    have separate := plan.separate_targets data context
    rw [reaching] at separate
    exact Separate.apart (List.pairwise_append.mp separate).1
  have reaches := plan.reaches_targets data context
  rw [reaching] at reaches
  obtain ⟨room, same⟩ := reaches_prefix reaches
  refine ⟨slots, rest, reaching, apart, room, same, fun mutator state => ?_⟩
  rw [write_eq_visit, reaching, visit_stopped apart, same]

/-- Writing through a plan with wildcards makes the writes of its concrete plans, which are known
from the data as it was, in order and up to the first that is not possible. Where there is such a
one, the slots before it have their answers and all else is as it was. -/
theorem write_in_turn (plan : Plan) (h : plan.isIterating = true) (mutator : Mutator σ) (state : σ)
    (data context : Value) :
    let indices := plan.indices data context
    let outcome := plan.write mutator state data context
    let logged := plan.write mutator.logged (state, []) data context
    List.Forall₂ (plan.Leads data) indices (plan.allMatches data context) ∧
    indices.Pairwise (· < ·) ∧
    (∀ single ∈ indices.map plan.concrete, single.isIterating = false ∧ single.start ≠ []) ∧
    outcome = writeEach mutator context state data (indices.map plan.concrete) ∧
    logged = writeEach mutator.logged context (state, []) data (indices.map plan.concrete) ∧
    ∀ obstacle, outcome.obstacle = some obstacle →
      ∃ before failing after slots, indices = before ++ failing :: after ∧
        (before.map fun single => (plan.concrete single).targets data context) =
          slots.map (fun p => [.ok p]) ∧
        (plan.concrete failing).write mutator state data context =
          ⟨data, state, some obstacle⟩ ∧
        slots.Pairwise Position.Apart ∧
        let old := (plan.found data context).take slots.length
        let answers := mutator.feed state old
        slots.map (fun p => (Position.at? p data).getD .null) = old ∧
        logged.state = (outcome.state, old) ∧
        answers.1.length = slots.length ∧
        (outcome.data, outcome.state) = (fill data slots answers.1, answers.2) ∧
        (∀ entry ∈ slots.zip answers.1, Position.at? entry.1 outcome.data = some entry.2) ∧
        (∀ q, (∀ p ∈ slots, Position.Apart p q) →
          Position.at? q outcome.data = Position.at? q data) ∧
        (∀ q v, (∀ p ∈ slots, ¬p <+: q) → Position.at? q data = some v →
          ∃ w, Position.at? q outcome.data = some w ∧
            v.KeepsShape (fun key => q ++ [.member key] ∈ slots) w) := by
  intro indices outcome logged
  have leads : List.Forall₂ (plan.Leads data) indices (plan.allMatches data context) := by
    rw [allMatches_eq_meaning]
    exact plan.leads_meaning data context
  have starts : ∀ single ∈ indices, (plan.concrete single).start ≠ [] :=
    ((List.forall₂_and_left _ _).mp
      (leads.imp fun _ _ lead => ⟨start_concrete_ne_nil lead, lead⟩)).1
  refine ⟨leads, plan.pairwise_indices data context, ?_, write_eq_writeEach h mutator state data
    context, write_eq_writeEach h mutator.logged (state, []) data context, ?_⟩
  · intro single hsingle
    obtain ⟨single, hmem, rfl⟩ := List.mem_map.mp hsingle
    exact ⟨rfl, starts single hmem⟩
  · intro obstacle met
    obtain ⟨slots, rest, reaching, apart, room, same, written⟩ := write_stopped met
    obtain ⟨before, behind, split, reached, blocked⟩ := List.map_eq_append_iff.mp
      ((targets_eq_concrete h data context).symm.trans reaching)
    obtain ⟨failing, after, rfl, failed, _⟩ := List.map_eq_cons_iff.mp blocked
    have length : (mutator.feed state ((plan.found data context).take slots.length)).1.length =
        slots.length := by
      rw [Mutator.length_feed, ← same, List.length_map]
    have before_slots : (before.map fun single => (plan.concrete single).targets data context) =
        slots.map fun p => [.ok p] := by
      have alone := congrArg (List.map fun target => [target]) reached
      rwa [List.map_map, List.map_map] at alone
    have failing_alone : (plan.concrete failing).write mutator state data context =
        ⟨data, state, some obstacle⟩ := by
      rw [write_eq_visit, targets_concrete, failed]
      rfl
    refine ⟨before, failing, after, slots, split, before_slots, failing_alone, apart, same, ?_⟩
    show logged.state = (outcome.state, _) ∧ _
    rw [show outcome = _ from written mutator state,
      show logged = _ from written mutator.logged (state, [])]
    refine ⟨?_, length, rfl, at?_fill apart room _, ?_, ?_⟩
    · rw [Mutator.feed_logged, List.nil_append]
    · intro q hq
      exact at?_fill_of_apart hq data _
    · intro q v outside hv
      exact Position.keepsShape_fill apart room length outside hv

theorem write_in_turn_stopped :
    let path := "$.a.*.b.c"
    let plan : Plan := ⟨path, [⟨"a", false⟩], [⟨none, [⟨"b", false⟩, ⟨"c", false⟩]⟩]⟩
    let single (i : String) : Plan :=
      ⟨path, [⟨"a", false⟩, ⟨i, true⟩, ⟨"b", false⟩, ⟨"c", false⟩], []⟩
    let full : Value := .object [("b", .object [("c", .boolean true)])]
    let data : Value := .object [("a", .array [.object [("b", .object [])], .object [], full])]
    let history : Mutator (List Value) := fun seen v => (.array seen, seen ++ [v])
    plan.isIterating = true ∧
    writeEach history .null [] data [single "0", single "1", single "2"] =
      ⟨.object [("a", .array [.object [("b", .object [("c", .array [])])], .object [], full])],
        [.null], some (.noMember "b" .object)⟩ := by
  intro path plan single full data history
  have singles : (plan.indices data .null).map plan.concrete =
      [single "0", single "1", single "2"] := rfl
  obtain ⟨_, _, _, turn, _⟩ := write_in_turn plan rfl history [] data .null
  rw [singles] at turn
  exact ⟨rfl, turn.symm⟩

end Plan

end DocumentPath
