import DocumentPath.Proofs.Removal.Owners

namespace DocumentPath

variable {context : Value}

theorem flatMap_ite_singleton {α β : Type} (p : α → Bool) (f : α → β) (l : List α) :
    (l.flatMap fun a => if p a = true then [f a] else []) = (l.filter p).map f := by
  induction l with
  | nil => rfl
  | cons a l ih => cases h : p a <;> simp [h, ih]

/-- The matches in an array of the last level are the items that it takes. -/
theorem items_of_last (level : Level) (items : List Value) :
    (matchesFrom context [level] items).map (fun found => found.owner[found.index]?) =
      (level.taken context items).map some := by
  have entry (item : Value) (i : Nat) (hmem : (item, i) ∈ items.zipIdx) :
      (itemMatches context level [] items (item, i)).map (fun found => found.owner[found.index]?) =
        if level.accepts context item = true then [some item] else [] := by
    by_cases accepted : level.accepts context item = true
    · rw [itemMatches_last accepted, if_pos accepted]
      simp [List.mem_zipIdx_iff_getElem?.mp hmem]
    · rw [itemMatches_of_not_accepts accepted, if_neg accepted]
      rfl
  calc (matchesFrom context [level] items).map (fun found => found.owner[found.index]?)
      = items.zipIdx.flatMap fun e =>
          if level.accepts context e.1 = true then [some e.1] else [] := by
        rw [matchesFrom_cons, List.map_flatMap]
        exact List.flatMap_congr fun e he => entry e.1 e.2 he
    _ = ((items.zipIdx.map Prod.fst).filter (level.accepts context)).map some := by
        rw [List.filter_map, List.map_map]
        exact flatMap_ite_singleton (level.accepts context ∘ Prod.fst) (some ∘ Prod.fst) _
    _ = (level.taken context items).map some := by
        rw [List.zipIdx_map_fst]
        rfl

theorem feed_takeOut (level : Level) (all : List Value) (arrays : List (List Value)) :
    (level.takeOut context).feed all (arrays.map .array) =
      (arrays.map fun items => .array (level.kept context items),
        all ++ arrays.flatMap (level.taken context)) := by
  induction arrays generalizing all with
  | nil => simp [Mutator.feed]
  | cons items arrays ih => simp [Mutator.feed, Level.takeOut, ih]

namespace Plan

/-- The positions of the arrays that the last wildcard of a plan goes through, in order. -/
def owners (plan : Plan) (data context : Value) : List Position :=
  match Segment.arrayAt? plan.start data with
  | some (p, items) => (ownersBelow context plan.levels items).map (p ++ ·)
  | none => []

theorem at?_of_mem_owners {plan : Plan} {data : Value} {p : Position}
    (h : p ∈ plan.owners data context) :
    Position.at? p data = some (.array (itemsAt data p)) := by
  rw [owners] at h
  cases ha : Segment.arrayAt? plan.start data with
  | none => simp [ha] at h
  | some found =>
    obtain ⟨q, items⟩ := found
    simp only [ha] at h
    obtain ⟨r, hr, rfl⟩ := List.mem_map.mp h
    have array := Segment.at?_of_arrayAt? ha
    rw [itemsAt_append array, Position.at?_append, array]
    exact at?_of_mem_ownersBelow hr

theorem allMatches_eq_flatMap {plan : Plan} {last : Level}
    (h : plan.levels.getLast? = some last) (data context : Value) :
    plan.allMatches data context =
      (plan.owners data context).flatMap fun p => matchesFrom context [last] (itemsAt data p) := by
  rw [allMatches_eq_meaning, meaning, Segment.array?_eq_items?, Segment.items?_eq_arrayAt?, owners]
  cases ha : Segment.arrayAt? plan.start data with
  | none => exact matchesFrom_empty context plan.levels
  | some found =>
    obtain ⟨q, items⟩ := found
    have array := Segment.at?_of_arrayAt? ha
    simp only [Option.map_some, Option.getD_some, List.flatMap_map, itemsAt_append array]
    exact matchesFrom_eq_flatMap h items

/-- The owners lie apart, and removal fills them with what the last level rejects. -/
theorem remove_eq_fill {plan : Plan} {last : Level} (h : plan.levels.getLast? = some last)
    (hend : last.continuation = []) (data context : Value) :
    let owners := plan.owners data context
    owners.Pairwise Position.Apart ∧
    plan.remove data context =
      (.ok (owners.flatMap fun p => last.taken context (itemsAt data p)),
        fill data owners (owners.map fun p => .array (last.kept context (itemsAt data p)))) := by
  intro owners
  cases ha : Segment.arrayAt? plan.start data with
  | none =>
    have nothing : owners = [] := by simp only [owners, Plan.owners, ha]
    rw [nothing, remove, h]
    simp [hend, Segment.items?_eq_arrayAt?, ha, fill]
  | some found =>
    obtain ⟨q, items⟩ := found
    have visited := visit_below (last.takeOut context) [] (Segment.at?_of_arrayAt? ha)
      (addresses context wholeArray plan.levels items)
    rw [removeFrom_eq_visit h] at visited
    have separate : Separate
        ((addresses context wholeArray plan.levels items).map (Target.below q)) :=
      (separate_addresses (fun _ _ => List.pairwise_singleton _ _) _ _).below q
    obtain ⟨slots, hslots⟩ := obstacle_visit (congrArg Outcome.obstacle visited)
    have same : slots = owners := by
      rw [← reached_ok slots, ← hslots, reached_below]
      simp only [owners, Plan.owners, ha]
      rfl
    rw [hslots, same] at visited separate
    have apart := separate.apart
    have arrays : owners.map (fun p => (Position.at? p data).getD .null) =
        (owners.map (itemsAt data)).map .array := by
      rw [List.map_map]
      apply List.map_congr_left
      intro p hp
      rw [at?_of_mem_owners hp]
      rfl
    rw [visit_slots apart, arrays, feed_takeOut] at visited
    simp only [List.map_map, List.flatMap_map, List.nil_append] at visited
    obtain ⟨filled, collected, _⟩ := Outcome.mk.inj visited
    refine ⟨apart, ?_⟩
    rw [remove, h]
    simp only [hend, Segment.items?_eq_arrayAt?, ha, Option.map_some, ne_eq, not_true,
      Segment.put_of_arrayAt? ha, if_false]
    exact congrArg₂ (fun taken left => (Except.ok taken, left)) collected.symm filled.symm

/-- Removal takes out what the matches stand for, in order. Every array that the last wildcard goes
through keeps what is rejected, in order, and nothing else changes. A removal that fails changes
nothing at all. -/
theorem remove_takes_matches (plan : Plan) (data context : Value) :
    (∀ last, plan.levels.getLast? = some last → last.continuation = [] →
      let owners := plan.owners data context
      let left := (plan.remove data context).2
      (∃ taken, (plan.remove data context).1 = .ok taken ∧
        taken.map some =
          (plan.allMatches data context).map fun found => found.owner[found.index]?) ∧
      plan.allMatches data context =
        (owners.flatMap fun p => matchesFrom context [last] (itemsAt data p)) ∧
      owners.Pairwise Position.Apart ∧
      (∀ p ∈ owners, ∃ items, Position.at? p data = some (.array items) ∧
        Position.at? p left =
          some (.array (items.filter fun item => !last.accepts context item))) ∧
      (∀ q, (∀ p ∈ owners, Position.Apart p q) → Position.at? q left = Position.at? q data) ∧
      (∀ q v, (∀ p ∈ owners, ¬p <+: q) → Position.at? q data = some v →
        ∃ w, Position.at? q left = some w ∧ v.KeepsShape (fun _ => False) w)) ∧
    (∀ e, (plan.remove data context).1 = .error e → (plan.remove data context).2 = data) := by
  constructor
  · intro last h hend owners left
    obtain ⟨apart, removed⟩ := remove_eq_fill h hend data context
    have hleft : left = fill data owners
        (owners.map fun p => .array (last.kept context (itemsAt data p))) :=
      congrArg Prod.snd removed
    have matched := allMatches_eq_flatMap h data context
    have room : ∀ p ∈ owners, Position.IsSlot p data := fun p hp =>
      Position.isSlot_of_at? (at?_of_mem_owners hp)
    refine ⟨⟨_, congrArg Prod.fst removed, ?_⟩, matched, apart, ?_, ?_, ?_⟩
    · rw [matched, List.map_flatMap, List.map_flatMap]
      simp only [items_of_last]
    · intro p hp
      refine ⟨itemsAt data p, at?_of_mem_owners hp, ?_⟩
      have entry : (p, Value.array (last.kept context (itemsAt data p))) ∈
          owners.zip (owners.map fun p => .array (last.kept context (itemsAt data p))) := by
        rw [List.zip_map_right, List.mem_map]
        exact ⟨(p, p), by simpa [List.zip_eq_zipWith] using hp, rfl⟩
      rw [hleft]
      exact at?_fill apart room _ _ entry
    · intro q hq
      rw [hleft, at?_fill_of_apart hq]
    · intro q v outside hv
      obtain ⟨w, hw, shape⟩ := Position.keepsShape_fill apart room (List.length_map _) outside hv
      rw [hleft]
      refine ⟨w, hw, shape.congr fun key => ?_⟩
      have present : q ++ [.member key] ∈ owners → (v.child? (.member key)).isSome = true := by
        intro hmem
        have array := at?_of_mem_owners hmem
        rw [Position.at?_append, hv, Option.bind_some] at array
        obtain ⟨u, hu, _⟩ := Option.bind_eq_some_iff.mp array
        rw [hu]
        rfl
      simpa using present
  · intro e he
    unfold remove at he ⊢
    split
    · rfl
    · split
      · rfl
      · split <;> simp_all

end Plan

end DocumentPath
