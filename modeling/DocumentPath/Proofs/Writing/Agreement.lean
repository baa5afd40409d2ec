import DocumentPath.Proofs.Traversal.Indices
import DocumentPath.Proofs.Writing.Slots

namespace DocumentPath

variable {σ : Type} {context : Value}

namespace Segment

theorem valueAt_cons_of_locate? {step : Step} {v w : Value} {b : Branch}
    (h : v.locate? step.key = some (b, w)) (steps : Segment) :
    valueAt (step :: steps) v = valueAt steps w := by
  rw [valueAt, valueAt, find?, Value.find?, Value.get?_of_locate? h]

/-- Where a key names nothing yet, only the last step can write, and only a new member. -/
theorem new_member_of_target {step : Step} {steps : Segment} {v : Value} {p : Position}
    (hl : v.locate? step.key = none) (h : target (step :: steps) v = .ok p) :
    steps = [] ∧ ∃ members, v = .object members ∧ members.lookup step.key = none ∧
      p = [.member step.key] := by
  cases steps with
  | cons next steps => simp [target, hl] at h
  | nil =>
    cases v with
    | object members =>
      cases h
      exact ⟨rfl, members, rfl, Option.map_eq_none_iff.mp hl, rfl⟩
    | array items => simp [target, Value.lastTarget, hl] at h
    | _ => cases h

end Segment

/-- A value can be put at the target, and what stands there now is the given one. -/
def Reaches (data : Value) (target : Target) (v : Value) : Prop :=
  ∀ p, target = .ok p → Position.IsSlot p data ∧ (Position.at? p data).getD .null = v

/-- Where writing through steps ends up, there is room, and reading them gives what stands there.
Where a member is still to come that is `null` for both. -/
theorem reaches_target (segment : Segment) (v : Value) :
    Reaches v (segment.target v) (segment.valueAt v) := by
  induction segment generalizing v with
  | nil =>
    intro p h
    cases h
    exact ⟨trivial, rfl⟩
  | cons step steps ih =>
    intro p h
    cases hl : v.locate? step.key with
    | some found =>
      obtain ⟨b, w⟩ := found
      have hc := Value.child?_of_locate? hl
      rw [Segment.target_cons_of_locate? hl] at h
      obtain ⟨r, hr, rfl⟩ := eq_ok_of_below h
      obtain ⟨slot, same⟩ := ih w r hr
      rw [List.singleton_append, Position.IsSlot, Position.at?, hc,
        Segment.valueAt_cons_of_locate? hl]
      exact ⟨slot, same⟩
    | none =>
      obtain ⟨rfl, members, rfl, hnone, rfl⟩ := Segment.new_member_of_target hl h
      have nothing : (Value.object members).find? step.key = none := by
        simp [Value.find?, Value.get?, hnone, Value.length?]
      refine ⟨by simp [Position.IsSlot, Value.child?, hnone, Value.hasSlot], ?_⟩
      rw [Segment.valueAt, Segment.find?, nothing]
      simp [Position.at?, Value.child?, hnone]

/-- Targets that can be reached hold the values they stand for, whatever comes behind them. -/
theorem reaches_prefix {data : Value} {slots : List Position} {rest : List Target}
    {vs : List Value} (h : List.Forall₂ (Reaches data) (slots.map .ok ++ rest) vs) :
    (∀ p ∈ slots, Position.IsSlot p data) ∧
      slots.map (fun p => (Position.at? p data).getD .null) = vs.take slots.length := by
  induction slots generalizing vs with
  | nil => exact ⟨by simp, by simp⟩
  | cons p slots ih =>
    cases h with
    | @cons _ v _ vs first behind =>
      obtain ⟨room, same⟩ := first p rfl
      obtain ⟨rooms, sames⟩ := ih behind
      refine ⟨?_, by rw [List.map_cons, same, sames, List.length_cons, List.take_succ_cons]⟩
      intro q hq
      rcases List.mem_cons.mp hq with rfl | hq
      · exact room
      · exact rooms q hq

theorem reaches_below {data w : Value} {q : Position} (h : Position.at? q data = some w)
    {ts : List Target} {vs : List Value} (hr : List.Forall₂ (Reaches w) ts vs) :
    List.Forall₂ (Reaches data) (ts.map (Target.below q)) vs := by
  refine List.forall₂_map_left_iff.mpr (hr.imp ?_)
  intro t v ht p hp
  obtain ⟨r, hok, rfl⟩ := eq_ok_of_below hp
  obtain ⟨slot, same⟩ := ht r hok
  refine ⟨Position.isSlot_append h slot, ?_⟩
  rw [Position.at?_append, h]
  exact same

theorem reaches_itemTargets {targets : Value → List Target} {values : Value × Nat → List Value}
    {items : List Value}
    (h : ∀ item index, List.Forall₂ (Reaches item) (targets item) (values (item, index))) :
    List.Forall₂ (Reaches (.array items)) (itemTargets targets 0 items)
      (items.zipIdx.flatMap values) := by
  apply forall₂_flatMap
  rintro ⟨item, index⟩ hmem
  exact reaches_below (at?_item hmem) (h item index)

theorem map_flatMap_matches (context : Value) (level : Level) (deeper : List Level)
    (items : List Value) :
    (matchesFrom context (level :: deeper) items).map Match.value =
      items.zipIdx.flatMap fun entry =>
        (itemMatches context level deeper items entry).map Match.value := by
  rw [matchesFrom_cons, List.map_flatMap]

/-- The targets below an array stand for the values of the matches below it, one for one. -/
theorem reaches_addresses (levels : List Level) (items : List Value) :
    List.Forall₂ (Reaches (.array items)) (addresses context (slotTargets context) levels items)
      ((matchesFrom context levels items).map Match.value) := by
  induction levels generalizing items with
  | nil => exact .nil
  | cons level deeper ih =>
    rw [map_flatMap_matches]
    by_cases hd : deeper = []
    · subst hd
      rw [addresses_last, slotTargets]
      apply reaches_itemTargets
      intro item index
      by_cases accepted : level.accepts context item = true
      · rw [if_pos accepted, itemMatches_last accepted]
        exact .cons (reaches_target level.continuation item) .nil
      · rw [if_neg accepted, itemMatches_of_not_accepts accepted]
        exact .nil
    · rw [addresses_inner hd]
      apply reaches_itemTargets
      intro item index
      by_cases accepted : level.accepts context item = true
      · rw [innerTargets, if_pos accepted, itemMatches_inner accepted hd,
          Segment.array?_eq_items?, Segment.items?_eq_arrayAt?]
        cases ha : Segment.arrayAt? level.continuation item with
        | none => exact .nil
        | some found =>
          obtain ⟨p, inner⟩ := found
          exact reaches_below (Segment.at?_of_arrayAt? ha) (ih inner)
      · rw [innerTargets, if_neg accepted, itemMatches_of_not_accepts accepted]
        exact .nil

namespace Plan

/-- What a run gives, one value at a time. -/
def found (plan : Plan) (data context : Value) : List Value :=
  if plan.isIterating then ((plan.run data context).items?).getD [] else [plan.run data context]

theorem reaches_targets (plan : Plan) (data context : Value) :
    List.Forall₂ (Reaches data) (plan.targets data context) (plan.found data context) := by
  by_cases h : plan.isIterating = true
  · rw [targets, found, if_pos h, if_pos h, run, if_pos h, allMatches_eq_meaning, meaning,
      Segment.array?_eq_items?, Segment.items?_eq_arrayAt?]
    cases ha : Segment.arrayAt? plan.start data with
    | none =>
      rw [Option.map_none, Option.getD_none, matchesFrom_empty]
      exact .nil
    | some found =>
      obtain ⟨p, items⟩ := found
      exact reaches_below (Segment.at?_of_arrayAt? ha) (reaches_addresses plan.levels items)
  · rw [targets, found, if_neg h, if_neg h, run, if_neg h]
    exact .cons (reaches_target plan.start data) .nil

end Plan

/-- A mutator that also keeps what it was given, in order. -/
def Mutator.logged (mutator : Mutator σ) : Mutator (σ × List Value) := fun state v =>
  let answer := mutator state.1 v
  (answer.1, answer.2, state.2 ++ [v])

theorem Mutator.feed_logged (mutator : Mutator σ) (state : σ) (log vs : List Value) :
    mutator.logged.feed (state, log) vs =
      ((mutator.feed state vs).1, (mutator.feed state vs).2, log ++ vs) := by
  induction vs generalizing state log with
  | nil => simp [feed]
  | cons v vs ih =>
    rw [feed, feed, logged, ih]
    simp

namespace Plan

/-- The slots of a plan whose targets can all be reached hold what a run finds. -/
theorem reaches_slots {plan : Plan} {data context : Value} {slots : List Position}
    (h : plan.targets data context = slots.map .ok) :
    (∀ p ∈ slots, Position.IsSlot p data) ∧
      slots.map (fun p => (Position.at? p data).getD .null) = plan.found data context := by
  have reaches := plan.reaches_targets data context
  have length := reaches.length_eq
  rw [h, List.length_map] at length
  rw [h, ← List.append_nil (slots.map _)] at reaches
  obtain ⟨room, same⟩ := reaches_prefix reaches
  rw [length, List.take_length] at same
  exact ⟨room, same⟩

/-- Writing that meets no obstacle asks for the new values of exactly what a run finds in the data
as it was, and then puts the answers in the slots and changes nothing else. -/
theorem write_agrees_with_run (plan : Plan) (mutator : Mutator σ) (state : σ)
    (data context : Value) (h : (plan.write mutator state data context).obstacle = none) :
    let slots := plan.slots data context
    let found := plan.found data context
    let answers := mutator.feed state found
    let outcome := plan.write mutator state data context
    slots.map (fun p => (Position.at? p data).getD .null) = found ∧
    (plan.write mutator.logged (state, []) data context).state = (outcome.state, found) ∧
    slots.Pairwise Position.Apart ∧
    answers.1.length = slots.length ∧
    (outcome.data, outcome.state) = (fill data slots answers.1, answers.2) ∧
    (∀ entry ∈ slots.zip answers.1, Position.at? entry.1 outcome.data = some entry.2) ∧
    (∀ q, (∀ p ∈ slots, Position.Apart p q) →
      Position.at? q outcome.data = Position.at? q data) ∧
    (∀ q v, (∀ p ∈ slots, ¬p <+: q) → Position.at? q data = some v →
      ∃ w, Position.at? q outcome.data = some w ∧
        v.KeepsShape (fun key => q ++ [.member key] ∈ slots) w) := by
  rw [write_eq_visit] at h
  obtain ⟨slots, hslots⟩ := obstacle_visit h
  have known : plan.slots data context = slots := by
    rw [Plan.slots, hslots, reached_ok]
  have apart : slots.Pairwise Position.Apart :=
    Separate.apart (hslots ▸ plan.separate_targets data context)
  obtain ⟨room, same⟩ := reaches_slots hslots
  have written {τ : Type} (mutator : Mutator τ) (state : τ) :
      plan.write mutator state data context =
        ⟨fill data slots (mutator.feed state (plan.found data context)).1,
          (mutator.feed state (plan.found data context)).2, none⟩ := by
    rw [write_eq_visit, hslots, visit_slots apart, same]
  have length : (mutator.feed state (plan.found data context)).1.length = slots.length := by
    rw [Mutator.length_feed, ← same, List.length_map]
  simp only [known, written, Mutator.feed_logged, List.nil_append]
  refine ⟨same, trivial, apart, length, trivial, at?_fill apart room _, ?_, ?_⟩
  · intro q hq
    exact at?_fill_of_apart hq data _
  · intro q v outside hv
    exact Position.keepsShape_fill apart room length outside hv

theorem write_agrees_with_run_new_member :
    let plan : Plan := ⟨"$.a.*.b", [⟨"a", false⟩], [⟨none, [⟨"b", false⟩]⟩]⟩
    let data : Value := .object [("a", .array [.object [("b", .boolean true)], .object []])]
    let history : Mutator (List Value) := fun seen v => (.array seen, seen ++ [v])
    (plan.write history [] data .null).obstacle = none ∧
    (plan.write history.logged ([], []) data .null).state.2 = [.boolean true, .null] ∧
    Position.at? [.member "a", .item 1, .member "b"] (plan.write history [] data .null).data =
      some (.array [.boolean true]) := by
  intro plan data history
  have reached : (plan.write history [] data .null).obstacle = none := rfl
  have slots : plan.slots data .null =
      [[.member "a", .item 0, .member "b"], [.member "a", .item 1, .member "b"]] := rfl
  have found : plan.found data .null = [.boolean true, .null] := by
    rw [Plan.found, Plan.run, allMatches_eq_meaning]
    rfl
  have answers : (history.feed [] [.boolean true, .null]).1 =
      [.array [], .array [.boolean true]] := rfl
  obtain ⟨_, calls, _, _, _, filled, _⟩ := write_agrees_with_run plan history [] data .null reached
  rw [found] at calls filled
  rw [slots, answers] at filled
  exact ⟨reached, congrArg Prod.snd calls, filled (_, _) (.tail _ (.head _))⟩

end Plan

end DocumentPath
