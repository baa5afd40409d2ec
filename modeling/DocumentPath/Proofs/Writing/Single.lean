import DocumentPath.Proofs.References.Agreement
import DocumentPath.Proofs.Writing.Fusion

namespace DocumentPath

variable {σ : Type}

namespace Value

/-- What a key leads to in a value: a member with that key, or the item whose index it reads as. -/
inductive Names (key : String) : Value → Branch → Value → Prop
  | member {members : List (String × Value)} {w : Value} (there : members.lookup key = some w) :
    Names key (.object members) (.member key) w
  | item {items : List Value} {i : Nat} {w : Value} (index : Text.readIndex? key.toList = some i)
    (there : items[i]? = some w) : Names key (.array items) (.item i) w

/-- Where a container takes what is written under a key: an object under any, an array under those
that read as an index of an item. -/
inductive Takes (key : String) : Value → Branch → Prop
  | member (members : List (String × Value)) : Takes key (.object members) (.member key)
  | item {items : List Value} {i : Nat} (index : Text.readIndex? key.toList = some i)
    (inside : i < items.length) : Takes key (.array items) (.item i)

theorem locate?_eq_some_iff {v w : Value} {key : String} {b : Branch} :
    v.locate? key = some (b, w) ↔ Names key v b w := by
  constructor
  · intro h
    cases v with
    | object members =>
      obtain ⟨u, there, he⟩ := Option.map_eq_some_iff.mp h
      cases he
      exact .member there
    | array items =>
      obtain ⟨i, index, h⟩ := Option.bind_eq_some_iff.mp h
      obtain ⟨u, there, he⟩ := Option.map_eq_some_iff.mp h
      cases he
      exact .item index there
    | _ => cases h
  · rintro (there | ⟨index, there⟩)
    · simp [locate?, there]
    · simp [locate?, index, there]

theorem lastTarget_eq_ok_iff {v : Value} {key : String} {p : Position} :
    v.lastTarget key = .ok p ↔ ∃ b, Takes key v b ∧ p = [b] := by
  constructor
  · intro h
    cases v with
    | object members =>
      cases h
      exact ⟨_, .member members, rfl⟩
    | array items =>
      cases hl : (Value.array items).locate? key with
      | none => simp [lastTarget, hl] at h
      | some found =>
        obtain ⟨b, w⟩ := found
        simp only [lastTarget, hl] at h
        cases h
        cases locate?_eq_some_iff.mp hl with
        | item index there =>
          exact ⟨_, .item index (List.getElem?_eq_some_iff.mp there).1, rfl⟩
    | _ => cases h
  · rintro ⟨b, takes, rfl⟩
    cases takes with
    | member members => rfl
    | @item items i index inside =>
      have named := Names.item index (List.getElem?_eq_getElem inside)
      simp only [lastTarget, locate?_eq_some_iff.mpr named]

end Value

namespace Segment

/-- All steps lead on, from child to child, to the value at a position. -/
inductive Descends : Segment → Value → Position → Value → Prop
  | here (v : Value) : Descends [] v [] v
  | down {step : Step} {steps : Segment} {v u w : Value} {b : Branch} {p : Position}
    (first : Value.Names step.key v b u) (rest : Descends steps u p w) :
    Descends (step :: steps) v (b :: p) w

/-- All steps but the last lead to a container that takes what is written under the last key. -/
def Addresses (segment : Segment) (data : Value) (slot : Position) : Prop :=
  ∃ front last p container b, segment = front ++ [last] ∧ Descends front data p container ∧
    Value.Takes last.key container b ∧ slot = p ++ [b]

theorem Descends.at? {segment : Segment} {v w : Value} {p : Position}
    (h : Descends segment v p w) : Position.at? p v = some w := by
  induction h with
  | here v => rfl
  | down first _ ih =>
    rw [Position.at?, Value.child?_of_locate? (Value.locate?_eq_some_iff.mpr first)]
    exact ih

theorem target_concat_eq_ok_iff {front : Segment} {last : Step} {v : Value} {slot : Position} :
    target (front ++ [last]) v = .ok slot ↔ ∃ p container b,
      Descends front v p container ∧ Value.Takes last.key container b ∧ slot = p ++ [b] := by
  induction front generalizing v slot with
  | nil =>
    refine Value.lastTarget_eq_ok_iff.trans ⟨?_, ?_⟩
    · rintro ⟨b, takes, rfl⟩
      exact ⟨[], v, b, .here v, takes, rfl⟩
    · rintro ⟨p, container, b, descends, takes, rfl⟩
      cases descends
      exact ⟨b, takes, rfl⟩
  | cons step steps ih =>
    constructor
    · intro h
      cases hl : v.locate? step.key with
      | none => exact absurd (new_member_of_target hl h).1 (by simp)
      | some found =>
        obtain ⟨b, w⟩ := found
        rw [List.cons_append, target_cons_of_locate? hl] at h
        obtain ⟨r, hr, rfl⟩ := eq_ok_of_below h
        obtain ⟨p, container, c, descends, takes, rfl⟩ := ih.mp hr
        exact ⟨b :: p, container, c, .down (Value.locate?_eq_some_iff.mp hl) descends, takes, rfl⟩
    · rintro ⟨p, container, c, descends, takes, rfl⟩
      cases descends with
      | down first rest =>
        rw [List.cons_append, target_cons_of_locate? (Value.locate?_eq_some_iff.mpr first),
          ih.mpr ⟨_, container, c, rest, takes, rfl⟩]
        rfl

/-- Writing ends up in a slot just where steps address one. -/
theorem target_eq_ok_iff {segment : Segment} (ne : segment ≠ []) {v : Value} {slot : Position} :
    target segment v = .ok slot ↔ Addresses segment v slot := by
  constructor
  · intro h
    rw [← List.dropLast_append_getLast ne] at h
    obtain ⟨p, container, b, way⟩ := target_concat_eq_ok_iff.mp h
    exact ⟨_, _, p, container, b, (List.dropLast_append_getLast ne).symm, way⟩
  · rintro ⟨front, last, p, container, b, rfl, way⟩
    exact target_concat_eq_ok_iff.mpr ⟨p, container, b, way⟩

theorem exists_error_of_not_addresses {segment : Segment} (ne : segment ≠ []) {v : Value}
    (missing : ¬∃ slot, Addresses segment v slot) :
    ∃ obstacle, target segment v = .error obstacle := by
  cases ht : target segment v with
  | error obstacle => exact ⟨obstacle, rfl⟩
  | ok slot => exact absurd ⟨slot, (target_eq_ok_iff ne).mp ht⟩ missing

/-- A slot that is still empty is that of a new member. -/
theorem Addresses.new_member {segment : Segment} {data : Value} {slot : Position}
    (h : Addresses segment data slot) (empty : Position.at? slot data = none) :
    ∃ p members key, slot = p ++ [.member key] ∧ Position.at? p data = some (.object members) ∧
      members.lookup key = none := by
  obtain ⟨front, last, p, container, b, _, descends, takes, rfl⟩ := h
  rw [Position.at?_append, descends.at?] at empty
  cases takes with
  | member members =>
    refine ⟨p, members, last.key, rfl, descends.at?, ?_⟩
    simpa [Position.at?, Value.child?] using empty
  | item index inside => simp [Position.at?, Value.child?, inside] at empty

end Segment

/-- A value that is put at the place of a new member comes in order among the others. -/
theorem Position.setAt_new_member {p : Position} {data : Value} {members : List (String × Value)}
    {key : String} (there : at? p data = some (.object members))
    (absent : members.lookup key = none) (new : Value) :
    setAt (p ++ [.member key]) new data =
      setAt p (.object (Members.insert key new members)) data := by
  rw [setAt_append there]
  simp [setAt, Value.child?, Value.setChild, absent, Members.set_of_not_lookup]

namespace Outline

/-- Only the path of the root itself has no steps and no wildcards. -/
theorem start_ne_nil {path : String} {outline : Outline} (h : ofPath path = .ok outline)
    (flat : outline.levels = []) (inner : path ≠ "$") : outline.start ≠ [] := by
  rw [ofPath] at h
  split at h
  · next root => exact absurd (String.toList_injective root) inner
  · obtain ⟨parts, read, rfl⟩ := exists_of_map_ok h
    rw [(start_of_readParts read flat).1, splitOutside, ne_eq, List.map_eq_nil_iff,
      List.map_eq_nil_iff]
    exact List.splitOnP_ne_nil _ _
  · cases h
  · cases h

end Outline

namespace Plan

theorem start_ne_nil {engine : Engine} {path : String} {plan : Plan}
    (h : compile engine path = .ok plan) (flat : plan.isIterating = false) (inner : path ≠ "$") :
    plan.start ≠ [] := by
  obtain ⟨outline, read, none, rfl⟩ := eq_of_compile h flat
  exact Outline.start_ne_nil read none inner

theorem write_of_target {plan : Plan} {data : Value} {slot : Position}
    (flat : plan.isIterating = false) (h : plan.start.target data = .ok slot)
    (mutator : Mutator σ) (state : σ) (context : Value) :
    plan.write mutator state data context =
      ⟨Position.setAt slot (mutator state (plan.run data context)).1 data,
        (mutator state (plan.run data context)).2, none⟩ := by
  have old := (reaches_target plan.start data slot h).2
  rw [write, if_neg (by simp [flat]), writeAt_eq, h, run, if_neg (by simp [flat]), ← old]
  rfl

theorem write_of_no_target {plan : Plan} {data : Value} {obstacle : Obstacle}
    (flat : plan.isIterating = false) (h : plan.start.target data = .error obstacle)
    (mutator : Mutator σ) (state : σ) (context : Value) :
    plan.write mutator state data context = ⟨data, state, some obstacle⟩ := by
  rw [write, if_neg (by simp [flat]), writeAt_eq, h]
  rfl

theorem written_of_no_target {plan : Plan} {data : Value} {obstacle : Obstacle}
    (flat : plan.isIterating = false) (h : plan.start.target data = .error obstacle)
    (mutator : Mutator σ) (state : σ) (context : Value) :
    plan.written mutator state data context = .error (plan.fault obstacle) := by
  apply written_of_obstacle
  rw [write_of_no_target flat h]

theorem exists_written_iff {plan : Plan} (flat : plan.isIterating = false) (ne : plan.start ≠ [])
    (mutator : Mutator σ) (state : σ) (data context : Value) :
    (∃ after, plan.written mutator state data context = .ok after) ↔
      ∃ slot, plan.start.Addresses data slot := by
  cases ht : plan.start.target data with
  | ok slot =>
    have reached : (plan.write mutator state data context).obstacle = none := by
      rw [write_of_target flat ht]
    exact iff_of_true ⟨_, written_of_reached reached⟩ ⟨slot, (Segment.target_eq_ok_iff ne).mp ht⟩
  | error obstacle =>
    refine iff_of_false ?_ ?_
    · rintro ⟨after, ok⟩
      rw [written_of_no_target flat ht] at ok
      cases ok
    · rintro ⟨slot, way⟩
      rw [(Segment.target_eq_ok_iff ne).mpr way] at ht
      cases ht

/-- A run gives what stands at the target, and `null` for a member that is still to come. -/
theorem run_of_target {plan : Plan} {data : Value} {slot : Position}
    (flat : plan.isIterating = false) (h : plan.start.target data = .ok slot) (context : Value) :
    plan.run data context = (Position.at? slot data).getD .null := by
  rw [run, if_neg (by simp [flat]), (reaches_target plan.start data slot h).2]

section Target

variable {plan : Plan} {data context : Value} {slot : Position} (flat : plan.isIterating = false)
  (h : plan.start.target data = .ok slot)
include flat h

theorem write_const (v : Value) (state : σ) :
    plan.write (.const v) state data context = ⟨Position.setAt slot v data, state, none⟩ := by
  rw [write_of_target flat h]
  rfl

theorem at?_write_const (v : Value) (state : σ) :
    Position.at? slot (plan.write (.const v) state data context).data = some v := by
  rw [write_const flat h]
  exact Position.at?_setAt_self (Segment.isSlot_of_target h) v

theorem run_write_const (v : Value) (state : σ) :
    plan.run (plan.write (.const v) state data context).data context = v := by
  have there : Position.at? slot (plan.write (.const v) state data context).data = some v :=
    at?_write_const flat h v state
  rw [write_const flat h] at there ⊢
  rw [run_of_target flat (Segment.target_setAt h v), there]
  rfl

theorem write_write_const (v w : Value) (state : σ) :
    plan.write (.const w) state (plan.write (.const v) state data context).data context =
      plan.write (.const w) state data context := by
  rw [write_const flat h, write_const flat (Segment.target_setAt h v), write_const flat h,
    Position.setAt_setAt (Segment.isSlot_of_target h)]

/-- Putting a value at one position keeps the shape of what that position lies in. -/
theorem keepsShape_write_const (v : Value) (state : σ) {q : Position} {u : Value}
    (outside : ¬slot <+: q) (hu : Position.at? q data = some u) :
    ∃ w, Position.at? q (plan.write (.const v) state data context).data = some w ∧
      u.KeepsShape (fun key => q ++ [.member key] = slot) w := by
  have room : ∀ p ∈ [slot], Position.IsSlot p data :=
    List.forall_mem_singleton.mpr (Segment.isSlot_of_target h)
  have length : [v].length = [slot].length := rfl
  obtain ⟨w, hw, shape⟩ := Position.keepsShape_fill (List.pairwise_singleton _ slot) room length
    (by simpa using outside) hu
  refine ⟨w, by rwa [write_const flat h], ?_⟩
  exact shape.congr fun key => by rw [List.mem_singleton]

/-- Writing back what stands there changes nothing. -/
theorem write_back {old : Value} (there : Position.at? slot data = some old) (state : σ) :
    plan.run data context = old ∧
      (plan.write (.const (plan.run data context)) state data context).data = data := by
  have value : plan.run data context = old := by
    rw [run_of_target flat h, there]
    rfl
  refine ⟨value, ?_⟩
  rw [write_const flat h, value]
  exact Position.setAt_at? there

/-- Where nothing stands yet, writing back what a run gives adds a member. -/
theorem write_back_new_member {p : Position} {members : List (String × Value)} {key : String}
    (last : slot = p ++ [.member key]) (there : Position.at? p data = some (.object members))
    (absent : members.lookup key = none) (empty : Position.at? slot data = none) (state : σ) :
    (plan.write (.const (plan.run data context)) state data context).data =
      Position.setAt p (.object (Members.insert key .null members)) data := by
  rw [write_const flat h, run_of_target flat h, empty, last]
  exact Position.setAt_new_member there absent .null

end Target

/-- Without wildcards a plan writes to one slot. That is possible just where all steps but the last
lead to a container that takes what is written under the last key, and otherwise nothing happens.
The value is then what a run finds, and nothing else has changed. -/
theorem write_single_slot {engine : Engine} {path : String} {plan : Plan}
    (h : compile engine path = .ok plan) (flat : plan.isIterating = false) (inner : path ≠ "$")
    (data context : Value) :
    compileWriting engine path = .ok plan ∧
    (∀ {σ : Type} (mutator : Mutator σ) (state : σ),
      (∃ after, plan.written mutator state data context = .ok after) ↔
        ∃ slot, plan.start.Addresses data slot) ∧
    ((¬∃ slot, plan.start.Addresses data slot) →
      ∃ obstacle, ∀ {σ : Type} (mutator : Mutator σ) (state : σ),
        plan.write mutator state data context = ⟨data, state, some obstacle⟩ ∧
        plan.written mutator state data context = .error (.unaddressable path obstacle)) ∧
    ∀ slot, plan.start.Addresses data slot →
      let old := plan.run data context
      (∀ {σ : Type} (mutator : Mutator σ) (state : σ),
        plan.write mutator state data context =
          ⟨Position.setAt slot (mutator state old).1 data, (mutator state old).2, none⟩) ∧
      (∀ v : Value,
        let after := (plan.write (.const v) () data context).data
        plan.run after context = v ∧
        (∀ q, Position.at? (slot ++ q) after = Position.at? q v) ∧
        (∀ q, Position.Apart slot q → Position.at? q after = Position.at? q data) ∧
        (∀ q u, ¬slot <+: q → Position.at? q data = some u →
          ∃ w, Position.at? q after = some w ∧
            u.KeepsShape (fun key => q ++ [.member key] = slot) w) ∧
        ∀ w : Value, plan.write (.const w) () after context =
          plan.write (.const w) () data context) ∧
      let back := (plan.write (.const old) () data context).data
      (∀ there, Position.at? slot data = some there → old = there ∧ back = data) ∧
      (Position.at? slot data = none → ∃ p members key, slot = p ++ [.member key] ∧
        Position.at? p data = some (.object members) ∧ members.lookup key = none ∧
        back = Position.setAt p (.object (Members.insert key .null members)) data) := by
  have ne : plan.start ≠ [] := start_ne_nil h flat inner
  have named : plan.path = path := by
    obtain ⟨outline, _, _, rfl⟩ := eq_of_compile h flat
    rfl
  refine ⟨?_, ?_, ?_, ?_⟩
  · rw [compileWriting, h]
    exact if_pos (.inr ne)
  · intro σ mutator state
    exact exists_written_iff flat ne mutator state data context
  · intro missing
    obtain ⟨obstacle, target⟩ := Segment.exists_error_of_not_addresses ne missing
    refine ⟨obstacle, fun mutator state => ?_⟩
    rw [written_of_no_target flat target, fault, named]
    exact ⟨write_of_no_target flat target mutator state context, rfl⟩
  · intro slot way old
    have target : plan.start.target data = .ok slot := (Segment.target_eq_ok_iff ne).mpr way
    refine ⟨fun mutator state => write_of_target flat target mutator state context, ?_, ?_, ?_⟩
    · intro v
      refine ⟨run_write_const flat target v (), ?_, ?_, ?_, ?_⟩
      · intro q
        rw [Position.at?_append, at?_write_const flat target]
        rfl
      · intro q apart
        rw [write_const flat target, Position.at?_setAt_of_apart apart]
      · intro q u outside hu
        exact keepsShape_write_const flat target v () outside hu
      · intro w
        exact write_write_const flat target v w ()
    · intro there hthere
      exact write_back flat target hthere ()
    · intro empty
      obtain ⟨p, members, key, last, container, absent⟩ := way.new_member empty
      exact ⟨p, members, key, last, container, absent,
        write_back_new_member flat target last container absent empty ()⟩

theorem write_single_slot_new_member :
    let plan : Plan := ⟨"$.a.b", [⟨"a", false⟩, ⟨"b", false⟩], []⟩
    let data : Value := .object [("a", .object [("c", .boolean true)])]
    compileWriting .standard "$.a.b" = .ok plan ∧
    plan.start.Addresses data [.member "a", .member "b"] ∧
    plan.run (plan.write (.const (.boolean false)) () data .null).data .null = .boolean false ∧
    (plan.write (.const (plan.run data .null)) () data .null).data =
      .object [("a", .object [("b", .null), ("c", .boolean true)])] := by
  intro plan data
  have compiled : compile .standard "$.a.b" = .ok plan := by with_unfolding_all rfl
  have way : plan.start.Addresses data [.member "a", .member "b"] :=
    ⟨[⟨"a", false⟩], ⟨"b", false⟩, [.member "a"], .object [("c", .boolean true)], .member "b",
      rfl, .down (.member rfl) (.here _), .member _, rfl⟩
  obtain ⟨ready, _, _, laws⟩ := write_single_slot compiled rfl (by decide) data .null
  obtain ⟨_, written, _, added⟩ := laws _ way
  obtain ⟨p, members, key, slot, there, _, back⟩ := added rfl
  have parted : [Branch.member "a"] ++ [.member "b"] = p ++ [.member key] := slot
  obtain ⟨rfl, last⟩ := List.append_inj' parted rfl
  cases last
  cases there
  exact ⟨ready, way, (written (.boolean false)).1, back⟩

end Plan

end DocumentPath
