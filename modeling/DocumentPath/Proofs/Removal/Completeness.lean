import DocumentPath.Proofs.Removal.Taking

namespace DocumentPath

variable {context : Value}

variable {level : Level} {deeper : List Level} {item : Value} {items inner : List Value}

theorem removeInside_of_not_accepts (h : ¬level.accepts context item = true) :
    removeInside context level deeper item = (item, []) := if_neg h

theorem removeInside_of_items? (h : level.accepts context item = true)
    (hi : Segment.items? level.continuation item = some inner) :
    removeInside context level deeper item =
      (Segment.put level.continuation (.array (removeFrom context deeper inner).1) item,
        (removeFrom context deeper inner).2) := by
  simp only [removeInside, if_pos h, hi]

theorem removeInside_of_no_items (hi : Segment.items? level.continuation item = none) :
    removeInside context level deeper item = (item, []) := by
  simp only [removeInside, hi, ite_self]

theorem itemMatches_of_items? {owner : List Value} {index : Nat}
    (h : level.accepts context item = true) (hd : deeper ≠ [])
    (hi : Segment.items? level.continuation item = some inner) :
    itemMatches context level deeper owner (item, index) = matchesFrom context deeper inner := by
  rw [itemMatches_inner h hd, Segment.array?_eq_items?, hi]
  rfl

theorem itemMatches_of_no_items {owner : List Value} {index : Nat} (hd : deeper ≠ [])
    (hi : Segment.items? level.continuation item = none) :
    itemMatches context level deeper owner (item, index) = [] := by
  by_cases accepted : level.accepts context item = true
  · rw [itemMatches_inner accepted hd, Segment.array?_eq_items?, hi]
    rfl
  · exact itemMatches_of_not_accepts accepted

/-- An item that is changed may be rejected from then on, or it leads to the array that was gone
through. An item that is not changed is judged as before. -/
theorem itemMatches_removeInside {owner : List Value} {index : Nat} (hd : deeper ≠ [])
    (ih : ∀ inner, matchesFrom context deeper (removeFrom context deeper inner).1 = []) :
    itemMatches context level deeper owner
      ((removeInside context level deeper item).1, index) = [] := by
  by_cases accepted : level.accepts context item = true
  · cases hi : Segment.items? level.continuation item with
    | none =>
      rw [removeInside_of_no_items hi]
      exact itemMatches_of_no_items hd hi
    | some inner =>
      rw [removeInside_of_items? accepted hi]
      have left := Segment.items?_put hi (removeFrom context deeper inner).1
      by_cases still : level.accepts context (Segment.put level.continuation
          (.array (removeFrom context deeper inner).1) item) = true
      · rw [itemMatches_of_items? still hd left, ih]
      · exact itemMatches_of_not_accepts still
  · rw [removeInside_of_not_accepts accepted]
    exact itemMatches_of_not_accepts accepted

/-- Nothing is left to be found where removal has been. -/
theorem matchesFrom_removeFrom (levels : List Level) (items : List Value) :
    matchesFrom context levels (removeFrom context levels items).1 = [] := by
  induction levels generalizing items with
  | nil => rfl
  | cons level deeper ih =>
    rw [matchesFrom_cons, List.flatMap_eq_nil_iff]
    rintro ⟨item, index⟩ hmem
    have hitem := List.fst_mem_of_mem_zipIdx hmem
    by_cases hd : deeper = []
    · subst hd
      rw [removeFrom, partition_eq] at hitem
      have rejected : ¬level.accepts context item = true := by
        simpa [Level.kept] using (List.mem_filter.mp hitem).2
      exact itemMatches_of_not_accepts rejected
    · rw [removeFrom_inner hd] at hitem
      obtain ⟨before, _, rfl⟩ := List.mem_map.mp hitem
      exact itemMatches_removeInside hd ih

/-- Without matches none comes from any item. -/
theorem exists_itemMatches_eq_nil (h : matchesFrom context (level :: deeper) items = [])
    (hitem : item ∈ items) :
    ∃ index, itemMatches context level deeper items (item, index) = [] := by
  rw [matchesFrom_cons, List.flatMap_eq_nil_iff] at h
  rw [← List.zipIdx_map_fst 0 items] at hitem
  obtain ⟨⟨_, index⟩, hmem, rfl⟩ := List.mem_map.mp hitem
  exact ⟨index, h _ hmem⟩

/-- Removal that finds nothing leaves everything as it is. -/
theorem removeFrom_of_no_matches {levels : List Level} {items : List Value}
    (h : matchesFrom context levels items = []) : removeFrom context levels items = (items, []) := by
  induction levels generalizing items with
  | nil => rfl
  | cons level deeper ih =>
    by_cases hd : deeper = []
    · subst hd
      have rejected : ∀ item ∈ items, ¬level.accepts context item = true := by
        intro item hitem accepted
        obtain ⟨index, nothing⟩ := exists_itemMatches_eq_nil h hitem
        rw [itemMatches_last accepted] at nothing
        cases nothing
      rw [removeFrom, partition_eq]
      simp_all [Level.kept, Level.taken]
    · have same : ∀ item ∈ items, removeInside context level deeper item = (item, []) := by
        intro item hitem
        obtain ⟨index, nothing⟩ := exists_itemMatches_eq_nil h hitem
        by_cases accepted : level.accepts context item = true
        · cases hi : Segment.items? level.continuation item with
          | none => exact removeInside_of_no_items hi
          | some inner =>
            rw [itemMatches_of_items? accepted hd hi] at nothing
            rw [removeInside_of_items? accepted hi, ih nothing,
              Segment.put_get? (Segment.get?_of_items? hi)]
        · exact removeInside_of_not_accepts accepted
      have kept : items.map (fun item => (removeInside context level deeper item).1) = items := by
        conv => rhs; rw [← items.map_id]
        exact List.map_congr_left fun item hitem => by rw [same item hitem, id]
      have taken : items.flatMap (fun item => (removeInside context level deeper item).2) = [] :=
        List.flatMap_eq_nil_iff.mpr fun item hitem => by rw [same item hitem]
      rw [removeFrom_inner hd, kept, taken]

namespace Plan

theorem remove_of_last {plan : Plan} {last : Level} (h : plan.levels.getLast? = some last)
    (hend : last.continuation = []) (data context : Value) :
    plan.remove data context =
      match Segment.items? plan.start data with
      | none => (.ok [], data)
      | some items =>
        (.ok (removeFrom context plan.levels items).2,
          Segment.put plan.start (.array (removeFrom context plan.levels items).1) data) := by
  rw [remove, h]
  exact if_neg (not_not_intro hend)

/-- Removal leaves no match, whatever the filters read, and a second removal takes nothing and
changes nothing. -/
theorem remove_exhausts (plan : Plan) (last : Level) (h : plan.levels.getLast? = some last)
    (hend : last.continuation = []) (data context : Value) :
    let left := (plan.remove data context).2
    (∃ taken, (plan.remove data context).1 = .ok taken) ∧
    plan.allMatches left context = [] ∧
    plan.remove left context = (.ok [], left) := by
  have removal := remove_of_last h hend
  rw [removal data context]
  cases hi : Segment.items? plan.start data with
  | none =>
    refine ⟨⟨[], rfl⟩, ?_, ?_⟩
    · rw [allMatches_eq_meaning, meaning_of_no_items hi]
    · rw [removal, hi]
  | some items =>
    have left := Segment.items?_put hi (removeFrom context plan.levels items).1
    have nothing := @matchesFrom_removeFrom context plan.levels items
    refine ⟨⟨_, rfl⟩, ?_, ?_⟩
    · rw [allMatches_eq_meaning, meaning_of_items? left, nothing]
    · rw [removal, left]
      simp only [removeFrom_of_no_matches nothing, Segment.put_get? (Segment.get?_of_items? left)]

/-- The filter of the outer level reads the length of the array that removal empties: an element
that was rejected stays rejected, and one that was accepted leads to nothing more. -/
theorem remove_exhausts_shrinking :
    let short : Expression :=
      .call .lt [.element "items.length", .literal (.integer 2)]
    let plan : Plan := ⟨"$.[?(@.items.length < 2)].items.*", [],
      [⟨some ⟨short, short.predicate⟩, [⟨"items", false⟩]⟩, ⟨none, []⟩]⟩
    let group (items : List Value) : Value := .object [("items", .array items)]
    let data : Value := .array [group [.null, .null], group [.boolean true]]
    let left : Value := .array [group [.null, .null], group []]
    plan.levels.getLast? = some ⟨none, []⟩ ∧
    plan.remove data .null = (.ok [.boolean true], left) ∧
    plan.allMatches left .null = [] ∧
    plan.remove left .null = (.ok [], left) := by
  intro short plan group data left
  have removed : plan.remove data .null = (.ok [.boolean true], left) := by
    with_unfolding_all rfl
  obtain ⟨_, found, again⟩ := remove_exhausts plan ⟨none, []⟩ rfl rfl data .null
  rw [removed] at found again
  exact ⟨rfl, removed, found, again⟩

end Plan

end DocumentPath
