import DocumentPath.Proofs.Writing.Agreement

namespace DocumentPath

variable {σ τ α : Type} {context : Value}

theorem Value.locate?_setChild {v w : Value} {key : String} {b : Branch}
    (h : v.locate? key = some (b, w)) (new : Value) :
    (v.setChild b new).locate? key = some (b, new) := by
  cases v with
  | object members =>
    obtain ⟨u, _, he⟩ := Option.map_eq_some_iff.mp h
    cases he
    simp [setChild, locate?, Members.lookup_set_self]
  | array items =>
    obtain ⟨i, hi, h⟩ := Option.bind_eq_some_iff.mp h
    obtain ⟨u, hu, he⟩ := Option.map_eq_some_iff.mp h
    cases he
    have inside : i < items.length := (List.getElem?_eq_some_iff.mp hu).1
    simp [setChild, locate?, hi, inside]
  | _ => cases h

theorem Segment.isSlot_of_target {segment : Segment} {v : Value} {p : Position}
    (h : target segment v = .ok p) : Position.IsSlot p v :=
  (reaches_target segment v p h).1

/-- What is written at the target of steps does not move it. -/
theorem Segment.target_setAt {segment : Segment} {v : Value} {p : Position}
    (h : target segment v = .ok p) (new : Value) :
    target segment (Position.setAt p new v) = .ok p := by
  induction segment generalizing v p with
  | nil => exact h
  | cons step steps ih =>
    cases hl : v.locate? step.key with
    | some found =>
      obtain ⟨b, w⟩ := found
      rw [target_cons_of_locate? hl] at h
      obtain ⟨r, hr, rfl⟩ := eq_ok_of_below h
      rw [List.singleton_append, Position.setAt_cons_of_child? (Value.child?_of_locate? hl),
        target_cons_of_locate? (Value.locate?_setChild hl _), ih hr]
      rfl
    | none =>
      obtain ⟨rfl, members, rfl, hnone, rfl⟩ := new_member_of_target hl h
      have added : Position.setAt [.member step.key] new (.object members) =
          .object (Members.set step.key new members) := by
        simp [Position.setAt, Value.child?, hnone, Value.setChild]
      rw [added]
      rfl

/-- Asks a mutator about the image of what is there. -/
def Mutator.after (mutator : Mutator σ) (f : Value → Value) : Mutator σ := fun state v =>
  mutator state (f v)

theorem Mutator.feed_after (mutator : Mutator σ) (f : Value → Value) (state : σ)
    (vs : List Value) : (mutator.after f).feed state vs = mutator.feed state (vs.map f) := by
  induction vs generalizing state with
  | nil => rfl
  | cons v vs ih => rw [List.map_cons, feed, feed, ih, after]

/-- A second way of writing comes behind a first one to what a single one comes to, and all three
get equally far. -/
def Fuses (first : τ → α → Outcome τ α) (second both : σ → α → Outcome σ α) (v : α) :
    Prop :=
  ∀ t state, second state (first t v).data = both state v ∧
    (first t v).obstacle = (both state v).obstacle

theorem fuses_writeAt (mutator : Mutator σ) (f : Value → Value) (segment : Segment) (v : Value) :
    Fuses (fun (t : τ) v => .ofWrite v t (writeAt (.pure f) t segment v))
      (fun state v => .ofWrite v state (writeAt mutator state segment v))
      (fun state v => .ofWrite v state (writeAt (mutator.after f) state segment v)) v := by
  intro t state
  simp only [writeAt_eq]
  cases ht : segment.target v with
  | error obstacle =>
    simp only [Except.map, Outcome.ofWrite, ht, and_self]
  | ok p =>
    have slot : Position.IsSlot p v := Segment.isSlot_of_target ht
    simp only [Except.map, Outcome.ofWrite, Mutator.writeTo, Mutator.pure, Mutator.after,
      Segment.target_setAt ht, Position.at?_setAt_self slot, Position.setAt_setAt slot,
      Option.getD_some, and_self]

theorem fuses_writeItems {first : τ → Value → Outcome τ Value}
    {second both : σ → Value → Outcome σ Value} {items : List Value}
    (h : ∀ item ∈ items, Fuses first second both item) :
    Fuses (writeItems first) (writeItems second) (writeItems both) items := by
  induction items with
  | nil => exact fun _ _ => ⟨rfl, rfl⟩
  | cons item items ih =>
    intro t state
    obtain ⟨here, rest⟩ := List.forall_mem_cons.mp h
    obtain ⟨same, far⟩ := here t state
    cases ho : (both state item).obstacle with
    | some obstacle =>
      -- all stop at this item
      rw [ho] at far
      simp only [writeItems, far, same, ho, and_self]
    | none =>
      rw [ho] at far
      obtain ⟨behind, stop⟩ := ih rest (first t item).state (both state item).state
      simp only [writeItems, far, same, ho, behind, stop, and_self]

/-- Without filters an item that was written to is not judged anew. -/
theorem fuses_writeLevels (mutator : Mutator σ) (f : Value → Value) {levels : List Level}
    (unfiltered : ∀ level ∈ levels, level.filter = none) (items : List Value) :
    Fuses (writeLevels (.pure f : Mutator τ) context levels) (writeLevels mutator context levels)
      (writeLevels (mutator.after f) context levels) items := by
  induction levels generalizing items with
  | nil => exact fun _ _ => ⟨rfl, rfl⟩
  | cons level deeper ih =>
    obtain ⟨here, below⟩ := List.forall_mem_cons.mp unfiltered
    have accepted (item : Value) : level.accepts context item = true := by
      rw [Level.accepts, here]
      rfl
    cases deeper with
    | nil =>
      simp only [writeLevels, accepted, if_true]
      exact fuses_writeItems fun item _ => fuses_writeAt mutator f level.continuation item
    | cons next deeper =>
      simp only [writeLevels, accepted, if_true]
      refine fuses_writeItems fun item _ t state => ?_
      cases hi : Segment.items? level.continuation item with
      | none => simp only [hi, and_self]
      | some inner =>
        obtain ⟨same, far⟩ := ih below inner t state
        have slot := Segment.get?_of_items? hi
        simp only [Segment.items?_put hi, same, far, Segment.put_put slot, and_self]

namespace Plan

theorem fuses_write {plan : Plan} (unfiltered : ∀ level ∈ plan.levels, level.filter = none)
    (mutator : Mutator σ) (f : Value → Value) (data context : Value) :
    Fuses (fun (t : τ) data => plan.write (.pure f) t data context)
      (fun state data => plan.write mutator state data context)
      (fun state data => plan.write (mutator.after f) state data context) data := by
  intro t state
  by_cases h : plan.isIterating = true
  · simp only [write, if_pos h]
    cases hi : Segment.items? plan.start data with
    | none => simp only [hi, and_self]
    | some items =>
      have below : Fuses (writeLevels (.pure f : Mutator τ) context plan.levels)
          (writeLevels mutator context plan.levels)
          (writeLevels (mutator.after f) context plan.levels) items :=
        fuses_writeLevels mutator f unfiltered items
      obtain ⟨same, far⟩ := below t state
      have slot := Segment.get?_of_items? hi
      simp only [Segment.items?_put hi, same, far, Segment.put_put slot, and_self]
  · simp only [write, if_neg h]
    exact fuses_writeAt mutator f plan.start data t state

/-- Where all slots are reached, a mutator goes through what a run finds. -/
theorem state_write {plan : Plan} {mutator : Mutator σ} {state : σ} {data context : Value}
    (h : (plan.write mutator state data context).obstacle = none) :
    (plan.write mutator state data context).state =
      (mutator.feed state (plan.found data context)).2 := by
  rw [write_eq_visit] at h ⊢
  obtain ⟨slots, hslots⟩ := obstacle_visit h
  have apart : slots.Pairwise Position.Apart :=
    Separate.apart (hslots ▸ plan.separate_targets data context)
  rw [hslots, visit_slots apart, (reaches_slots hslots).2]

/-- Without filters a run behind a write finds the images of what it found before. -/
theorem found_write {plan : Plan} (unfiltered : ∀ level ∈ plan.levels, level.filter = none)
    {f : Value → Value} {t : τ} {data context : Value}
    (h : (plan.write (.pure f) t data context).obstacle = none) :
    plan.found (plan.write (.pure f) t data context).data context =
      (plan.found data context).map f := by
  -- a second write that only keeps what it is given finds what the run finds
  let reader : Mutator (Unit × List Value) := (Mutator.pure id).logged
  let after := (plan.write (.pure f) t data context).data
  have same : plan.write reader ((), []) after context =
      plan.write (reader.after f) ((), []) data context :=
    (fuses_write unfiltered reader f data context t ((), [])).1
  have far : (plan.write (.pure f) t data context).obstacle =
      (plan.write (reader.after f) ((), []) data context).obstacle :=
    (fuses_write unfiltered reader f data context t ((), [])).2
  have reached : (plan.write (reader.after f) ((), []) data context).obstacle = none := far ▸ h
  have first := state_write reached
  rw [← same] at reached first
  have second := state_write reached
  rw [first, Mutator.feed_after, Mutator.feed_logged, Mutator.feed_logged] at second
  exact (congrArg Prod.snd second).symm

theorem written_of_reached {plan : Plan} {mutator : Mutator σ} {state : σ} {data context : Value}
    (h : (plan.write mutator state data context).obstacle = none) :
    plan.written mutator state data context =
      .ok (plan.write mutator state data context).data := by
  simp only [written, h]

theorem written_of_obstacle {plan : Plan} {mutator : Mutator σ} {state : σ} {data context : Value}
    {obstacle : Obstacle} (h : (plan.write mutator state data context).obstacle = some obstacle) :
    plan.written mutator state data context = .error (plan.fault obstacle) := by
  simp only [written, h]

/-- Without filters a write maps what a run finds, and a write behind it is one write of the
composition, with the same outcome whether or not all slots are reached. -/
theorem write_maps_and_fuses (plan : Plan)
    (unfiltered : ∀ level ∈ plan.levels, level.filter = none) (f g : Value → Value) (state : σ)
    (data context : Value) :
    let first := plan.write (.pure f) state data context
    let both := plan.write (.pure (g ∘ f)) state data context
    (first.obstacle = none →
      (plan.isIterating = true → ∃ vs, plan.run data context = .array vs ∧
        plan.run first.data context = .array (vs.map f)) ∧
      (plan.isIterating = false → plan.run first.data context = f (plan.run data context))) ∧
    plan.write (.pure g) state first.data context = both ∧
    first.obstacle = both.obstacle ∧
    (plan.written (.pure f) state data context).bind
        (fun data => plan.written (.pure g) state data context) =
      plan.written (.pure (g ∘ f)) state data context := by
  intro first both
  have composed : (Mutator.pure g : Mutator σ).after f = .pure (g ∘ f) := rfl
  have fuses := fuses_write unfiltered (.pure g : Mutator σ) f data context state state
  rw [composed] at fuses
  have again : plan.write (.pure g) state first.data context = both := fuses.1
  have far : first.obstacle = both.obstacle := fuses.2
  refine ⟨fun reached => ?_, again, far, ?_⟩
  · have images := found_write unfiltered reached
    constructor
    · intro h
      rw [found, found, if_pos h, if_pos h, run, run, if_pos h, if_pos h] at images
      refine ⟨_, by rw [run, if_pos h], ?_⟩
      rw [run, if_pos h]
      exact congrArg Value.array images
    · intro h
      rw [found, found, h] at images
      exact List.singleton_inj.mp images
  · cases ho : both.obstacle with
    | none =>
      rw [written_of_reached (far.trans ho), written_of_reached ho]
      have reached : (plan.write (.pure g) state first.data context).obstacle = none := again ▸ ho
      exact (written_of_reached reached).trans (by rw [again])
    | some obstacle =>
      rw [written_of_obstacle (far.trans ho), written_of_obstacle ho]
      rfl

/-- The member that one element lacks is `null` for the first write and there for the second. -/
theorem write_maps_and_fuses_new_member :
    let plan : Plan := ⟨"$.a.*.b", [⟨"a", false⟩], [⟨none, [⟨"b", false⟩]⟩]⟩
    let data : Value := .object [("a", .array [.object [("b", .boolean true)], .object []])]
    let wrap : Value → Value := fun v => .array [v]
    (plan.write (.pure wrap) () data .null).obstacle = none ∧
    plan.run (plan.write (.pure wrap) () data .null).data .null =
      .array [.array [.boolean true], .array [.null]] ∧
    (plan.write (.pure wrap) () (plan.write (.pure wrap) () data .null).data .null).data =
      .object [("a", .array [.object [("b", .array [.array [.boolean true]])],
        .object [("b", .array [.array [.null]])]])] := by
  intro plan data wrap
  have unfiltered : ∀ level ∈ plan.levels, level.filter = none := by simp [plan]
  have reached : (plan.write (.pure wrap) () data .null).obstacle = none := rfl
  obtain ⟨images, again, _⟩ := write_maps_and_fuses plan unfiltered wrap wrap () data .null
  obtain ⟨vs, before, after⟩ := (images reached).1 rfl
  have values : plan.run data .null = .array [.boolean true, .null] := by
    rw [run, allMatches_eq_meaning]
    rfl
  obtain rfl : [.boolean true, .null] = vs := Value.array.inj (values.symm.trans before)
  exact ⟨reached, after, by rw [again]; rfl⟩

end Plan

end DocumentPath
