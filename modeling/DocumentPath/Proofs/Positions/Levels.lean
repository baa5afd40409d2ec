import DocumentPath.Proofs.Positions.Addresses

namespace DocumentPath

/-- The positions among targets. -/
def reached (targets : List Target) : List Position := targets.filterMap Except.toOption

theorem reached_ok (slots : List Position) : reached (slots.map .ok) = slots := by
  simp [reached, List.filterMap_map, Function.comp_def, Except.toOption]

/-- No two targets lie in each other. -/
def Separate (targets : List Target) : Prop :=
  targets.Pairwise fun t u => ∀ p q, t = .ok p → u = .ok q → Position.Apart p q

theorem Separate.apart {slots : List Position} (h : Separate (slots.map .ok)) :
    slots.Pairwise Position.Apart := by
  refine (List.pairwise_map.mp h).imp ?_
  intro p q hpq
  exact hpq p q rfl rfl

theorem eq_ok_of_below {q p : Position} {t : Target} (h : t.below q = .ok p) :
    ∃ r, t = .ok r ∧ p = q ++ r := by
  cases t with
  | error obstacle => cases h
  | ok r =>
    cases h
    exact ⟨r, rfl, rfl⟩

theorem Separate.below {targets : List Target} (h : Separate targets) (q : Position) :
    Separate (targets.map (Target.below q)) := by
  refine List.pairwise_map.mpr (h.imp ?_)
  intro t u htu p p' hp hp'
  obtain ⟨r, ht, rfl⟩ := eq_ok_of_below hp
  obtain ⟨r', hu, rfl⟩ := eq_ok_of_below hp'
  exact (htu r r' ht hu).append_left q

/-- Targets in different items lie apart. -/
theorem separate_itemTargets {targets : Value → List Target} {items : List Value}
    (h : ∀ item ∈ items, Separate (targets item)) (start : Nat) :
    Separate (itemTargets targets start items) := by
  induction items generalizing start with
  | nil => exact .nil
  | cons item items ih =>
    rw [itemTargets, List.zipIdx_cons, List.flatMap_cons]
    refine List.pairwise_append.mpr ⟨(h item (by simp)).below _,
      ih (fun other ho => h other (by simp [ho])) (start + 1), ?_⟩
    intro t ht u hu p q hp hq
    obtain ⟨t', _, rfl⟩ := List.mem_map.mp ht
    obtain ⟨⟨other, i⟩, hmem, hu⟩ := List.mem_flatMap.mp hu
    obtain ⟨u', _, rfl⟩ := List.mem_map.mp hu
    obtain ⟨r, _, rfl⟩ := eq_ok_of_below hp
    obtain ⟨r', _, rfl⟩ := eq_ok_of_below hq
    have later : start + 1 ≤ i := (List.mem_zipIdx_iff_le_and_getElem?_sub.mp hmem).1
    refine Position.apart_cons_cons.mpr (.inl ?_)
    intro he
    cases he
    omega

/-- The targets that levels lead to below the items of an array. `ends` tells those in an array of
the last level. -/
def addresses (context : Value) (ends : Level → List Value → List Target) :
    List Level → List Value → List Target
  | [], _ => []
  | level :: deeper, items =>
    if deeper.isEmpty then ends level items
    else itemTargets (fun item =>
      if level.accepts context item then
        match Segment.arrayAt? level.continuation item with
        | some (p, inner) => (addresses context ends deeper inner).map (Target.below p)
        | none => []
      else []) 0 items

variable {context : Value} {ends : Level → List Value → List Target}

/-- The targets below one item of a level that is not the last. -/
def innerTargets (context : Value) (ends : Level → List Value → List Target) (level : Level)
    (deeper : List Level) (item : Value) : List Target :=
  if level.accepts context item then
    match Segment.arrayAt? level.continuation item with
    | some (p, inner) => (addresses context ends deeper inner).map (Target.below p)
    | none => []
  else []

theorem addresses_last (level : Level) (items : List Value) :
    addresses context ends [level] items = ends level items := rfl

theorem addresses_inner {deeper : List Level} (h : deeper ≠ []) (level : Level)
    (items : List Value) :
    addresses context ends (level :: deeper) items =
      itemTargets (innerTargets context ends level deeper) 0 items := by
  rw [addresses, if_neg (by simpa using h)]
  rfl

theorem separate_addresses (h : ∀ level items, Separate (ends level items)) (levels : List Level)
    (items : List Value) : Separate (addresses context ends levels items) := by
  induction levels generalizing items with
  | nil => exact .nil
  | cons level deeper ih =>
    by_cases hd : deeper = []
    · subst hd
      exact h level items
    · rw [addresses_inner hd]
      apply separate_itemTargets
      intro item _
      rw [innerTargets]
      split
      · split
        · exact (ih _).below _
        · exact .nil
      · exact .nil

end DocumentPath
