import Mathlib.Data.List.Forall2
import DocumentPath.Proofs.Traversal.Enumeration
import DocumentPath.Proofs.Traversal.Indices

namespace DocumentPath

namespace Segment

/-- Behind steps that lead to a slot, reading goes on from that slot. -/
theorem find?_append {front : Segment} {v w : Value} (h : get? front v = some w)
    (behind : Segment) : find? (front ++ behind) v = find? behind w := by
  induction front generalizing v with
  | nil =>
    cases h
    rfl
  | cons step steps ih =>
    obtain ⟨u, hu, h⟩ := Option.bind_eq_some_iff.mp h
    rw [List.cons_append, find?, Value.find?, hu]
    exact ih h

theorem valueAt_append {front : Segment} {v w : Value} (h : get? front v = some w)
    (behind : Segment) : valueAt (front ++ behind) v = valueAt behind w := by
  rw [valueAt, valueAt, find?_append h]

end Segment

/-- Where indices lead to a match, the steps through them lead to its value. -/
theorem LeadsFrom.valueAt_eq {levels : List Level} {v : Value} {segment : Segment}
    {indices : List Nat} {found : Match} (h : LeadsFrom levels v segment indices found)
    (value : ∃ last ∈ levels.getLast?, ∃ item, found.owner[found.index]? = some item ∧
      found.value = last.continuation.valueAt item) :
    Segment.valueAt (segment ++ Segment.through levels indices) v = found.value := by
  obtain ⟨_, last, hlast, steps, route, owner⟩ := h
  obtain ⟨last', hlast', item, hitem, hvalue⟩ := value
  have same : last = last' := Option.some.inj (hlast.symm.trans hlast')
  subst same
  have element : Segment.get? (steps ++ [Step.item found.index]) v = some item := by
    rw [Segment.get?_append, Segment.get?_of_items? owner]
    change ((Value.array found.owner).get? (Step.item found.index).key).bind some = some item
    rw [Value.get?_item, hitem]
    rfl
  rw [route, List.append_cons, Segment.valueAt_append element, hvalue]

/-- One index for each level, each of them that of an item which is allowed there, in the array that
the steps before it lead to. -/
def Passes (allowed : Level → Value → Prop) : Segment → List Level → Value → List Nat → Prop
  | segment, level :: deeper, v, i :: indices => ∃ items item,
      Segment.items? segment v = some items ∧ items[i]? = some item ∧ allowed level item ∧
        Passes allowed level.continuation deeper item indices
  | _, [], _, [] => True
  | _, _, _, _ => False

theorem passes_congr {P Q : Level → Value → Prop} {levels : List Level}
    (h : ∀ level ∈ levels, ∀ item, P level item ↔ Q level item) (segment : Segment) (v : Value)
    (indices : List Nat) : Passes P segment levels v indices ↔ Passes Q segment levels v indices := by
  induction levels generalizing segment v indices with
  | nil => cases indices <;> exact Iff.rfl
  | cons level deeper ih =>
    cases indices with
    | nil => exact Iff.rfl
    | cons i indices =>
      obtain ⟨first, rest⟩ := List.forall_mem_cons.mp h
      simp only [Passes, first, ih rest]

theorem mem_indicesFrom_cons {context : Value} {level : Level} {deeper : List Level}
    {items : List Value} {indices : List Nat} :
    indices ∈ indicesFrom context (level :: deeper) items ↔
      ∃ i item, items[i]? = some item ∧
        indices ∈ itemIndices context level deeper (item, i) := by
  rw [indicesFrom_cons, List.mem_flatMap]
  constructor
  · rintro ⟨⟨item, i⟩, hmem, h⟩
    exact ⟨i, item, List.mem_zipIdx_iff_getElem?.mp hmem, h⟩
  · rintro ⟨i, item, hitem, h⟩
    exact ⟨(item, i), List.mem_zipIdx_iff_getElem?.mpr hitem, h⟩

theorem mem_itemIndices_last {context : Value} {level : Level} {item : Value} {i : Nat}
    {indices : List Nat} : indices ∈ itemIndices context level [] (item, i) ↔
      level.accepts context item = true ∧ indices = [i] := by
  by_cases accepted : level.accepts context item = true
  · simp [itemIndices_last accepted, accepted]
  · simp [itemIndices_of_not_accepts accepted, accepted]

theorem mem_itemIndices_inner {context : Value} {level : Level} {deeper : List Level}
    {item : Value} {i : Nat} {indices : List Nat} (hne : deeper ≠ []) :
    indices ∈ itemIndices context level deeper (item, i) ↔
      level.accepts context item = true ∧ ∃ rest items, indices = i :: rest ∧
        Segment.items? level.continuation item = some items ∧
        rest ∈ indicesFrom context deeper items := by
  by_cases accepted : level.accepts context item = true
  · rw [itemIndices_inner accepted hne, List.mem_map]
    cases hi : Segment.items? level.continuation item with
    | none => simp
    | some items => simp [accepted, eq_comm, and_comm]
  · simp [itemIndices_of_not_accepts accepted, accepted]

section Passing

variable {allowed : Level → Value → Prop} {segment : Segment} {level : Level}
  {deeper : List Level} {v : Value} {indices : List Nat}

theorem passes_nil_iff : Passes allowed segment [] v indices ↔ indices = [] := by
  cases indices with
  | nil => exact ⟨fun _ => rfl, fun _ => trivial⟩
  | cons i rest => exact ⟨False.elim, fun h => absurd h (List.cons_ne_nil i rest)⟩

theorem Passes.exists_items (h : Passes allowed segment (level :: deeper) v indices) :
    ∃ items, Segment.items? segment v = some items := by
  cases indices with
  | nil => exact False.elim h
  | cons i rest =>
    obtain ⟨items, _, hi, _⟩ := h
    exact ⟨items, hi⟩

theorem passes_cons_iff {items : List Value} (hi : Segment.items? segment v = some items) :
    Passes allowed segment (level :: deeper) v indices ↔ ∃ i rest item, indices = i :: rest ∧
      items[i]? = some item ∧ allowed level item ∧
      Passes allowed level.continuation deeper item rest := by
  constructor
  · intro h
    cases indices with
    | nil => exact False.elim h
    | cons i rest =>
      obtain ⟨items', item, hi', hitem, here, behind⟩ := h
      cases hi.symm.trans hi'
      exact ⟨i, rest, item, rfl, hitem, here, behind⟩
  · rintro ⟨i, rest, item, rfl, hitem, here, behind⟩
    exact ⟨items, item, hi, hitem, here, behind⟩

end Passing

/-- A traversal passes through the indices of the items that the filters accept. -/
theorem mem_indicesFrom_iff {context : Value} {level : Level} {deeper : List Level}
    {segment : Segment} {v : Value} {items : List Value}
    (hi : Segment.items? segment v = some items) (indices : List Nat) :
    indices ∈ indicesFrom context (level :: deeper) items ↔
      Passes (fun level item => level.accepts context item = true) segment (level :: deeper) v
        indices := by
  induction deeper generalizing level segment v items indices with
  | nil =>
    rw [mem_indicesFrom_cons, passes_cons_iff hi]
    constructor
    · rintro ⟨i, item, hitem, h⟩
      obtain ⟨accepted, rfl⟩ := mem_itemIndices_last.mp h
      exact ⟨i, [], item, rfl, hitem, accepted, trivial⟩
    · rintro ⟨i, rest, item, rfl, hitem, accepted, behind⟩
      obtain rfl := passes_nil_iff.mp behind
      exact ⟨i, item, hitem, mem_itemIndices_last.mpr ⟨accepted, rfl⟩⟩
  | cons next deeper ih =>
    rw [mem_indicesFrom_cons, passes_cons_iff hi]
    constructor
    · rintro ⟨i, item, hitem, h⟩
      obtain ⟨accepted, rest, inner, rfl, hinner, hrest⟩ :=
        (mem_itemIndices_inner (List.cons_ne_nil _ _)).mp h
      exact ⟨i, rest, item, rfl, hitem, accepted, (ih hinner rest).mp hrest⟩
    · rintro ⟨i, rest, item, rfl, hitem, accepted, behind⟩
      obtain ⟨inner, hinner⟩ := behind.exists_items
      have deep := (ih hinner rest).mpr behind
      exact ⟨i, item, hitem, (mem_itemIndices_inner (List.cons_ne_nil _ _)).mpr
        ⟨accepted, rest, inner, rfl, hinner, deep⟩⟩

namespace Plan

theorem mem_indices_iff {plan : Plan} (h : plan.isIterating = true) (data context : Value)
    (indices : List Nat) :
    indices ∈ plan.indices data context ↔
      Passes (fun level item => level.accepts context item = true) plan.start plan.levels data
        indices := by
  cases hl : plan.levels with
  | nil => simp [isIterating, hl] at h
  | cons level deeper =>
    cases hi : Segment.items? plan.start data with
    | some items =>
      rw [indices_of_items? hi, hl]
      exact mem_indicesFrom_iff hi indices
    | none =>
      rw [indices_of_no_items hi]
      constructor
      · exact fun hmem => absurd hmem List.not_mem_nil
      · intro passes
        obtain ⟨items, hi'⟩ := passes.exists_items
        cases hi.symm.trans hi'

/-- Without filters every index in range is passed. -/
theorem mem_indices_iff_of_unfiltered {plan : Plan} (h : plan.isIterating = true)
    (unfiltered : ∀ level ∈ plan.levels, level.filter = none) (data context : Value)
    (indices : List Nat) :
    indices ∈ plan.indices data context ↔
      Passes (fun _ _ => True) plan.start plan.levels data indices := by
  rw [mem_indices_iff h]
  refine passes_congr (fun level hl item => ?_) plan.start data indices
  rw [Level.accepts, unfiltered level hl]
  exact ⟨fun _ => trivial, fun _ => rfl⟩

/-- The plan with the indices of a match in place of its wildcards gives the value of the match. -/
theorem run_concrete (plan : Plan) (data context : Value) :
    List.Forall₂ (fun indices found => plan.Leads data indices found ∧
        (plan.concrete indices).run data context = found.value)
      (plan.indices data context) (plan.allMatches data context) := by
  have values : ∀ found ∈ plan.allMatches data context, ∃ last ∈ plan.levels.getLast?, ∃ item,
      found.owner[found.index]? = some item ∧ found.value = last.continuation.valueAt item := by
    intro found hmem
    rw [allMatches_eq_meaning] at hmem
    obtain ⟨last, hlast, item, hitem, _, value⟩ := mem_matchesFrom hmem
    exact ⟨last, hlast, item, hitem, value⟩
  have leads := leads_meaning plan data context
  rw [← allMatches_eq_meaning] at leads
  refine ((List.forall₂_and_left _ _).mpr ⟨values, leads.flip⟩).flip.imp ?_
  rintro indices found ⟨value, lead⟩
  exact ⟨lead, lead.valueAt_eq value⟩

/-- Wildcards stand for indices. Each match of a plan is passed at one index for each level, and the
plan with these indices in place of the wildcards gives its value. Running the plan gives the values of
these concrete plans, in the order of the indices. They are the indices of the items that the filters
accept, and without filters all those in range. -/
theorem run_eq_concrete (plan : Plan) (h : plan.isIterating = true) (data context : Value) :
    List.Forall₂ (fun indices found => plan.Leads data indices found ∧
        (plan.concrete indices).run data context = found.value)
      (plan.indices data context) (plan.allMatches data context) ∧
    plan.run data context = .array ((plan.indices data context).map fun indices =>
      (plan.concrete indices).run data context) ∧
    (plan.indices data context).Pairwise (· < ·) ∧
    (∀ indices, indices ∈ plan.indices data context ↔
      Passes (fun level item => level.accepts context item = true) plan.start plan.levels data
        indices) ∧
    ((∀ level ∈ plan.levels, level.filter = none) → ∀ indices,
      indices ∈ plan.indices data context ↔
        Passes (fun _ _ => True) plan.start plan.levels data indices) := by
  have each := run_concrete plan data context
  refine ⟨each, ?_, pairwise_indices plan data context, mem_indices_iff h data context,
    fun unfiltered => mem_indices_iff_of_unfiltered h unfiltered data context⟩
  have values : (plan.allMatches data context).map Match.value =
      (plan.indices data context).map fun indices =>
        (plan.concrete indices).run data context := by
    refine List.forall₂_eq_eq_eq ▸ List.forall₂_map_left_iff.mpr
      (List.forall₂_map_right_iff.mpr (each.flip.imp ?_))
    rintro found indices ⟨_, value⟩
    exact value.symm
  rw [run, if_pos h, values]

theorem run_eq_concrete_lengths :
    let plan : Plan := ⟨"$.a.*.length", [⟨"a", false⟩], [⟨none, [⟨"length", false⟩]⟩]⟩
    let single (i : String) : Plan :=
      ⟨"$.a.*.length", [⟨"a", false⟩, ⟨i, true⟩, ⟨"length", false⟩], []⟩
    let data : Value := .object [("a", .array [.string "xy", .null, .object [("length", .null)]])]
    plan.isIterating = true ∧
    plan.run data .null = .array [(single "0").run data .null, (single "1").run data .null,
      (single "2").run data .null] ∧
    plan.run data .null = .array [.integer 2, .null, .null] := by
  intro plan single data
  obtain ⟨_, values, _⟩ := run_eq_concrete plan rfl data .null
  have singles : (plan.indices data .null).map plan.concrete = [single "0", single "1", single "2"] :=
    rfl
  have runs := congrArg (List.map fun p : Plan => p.run data .null) singles
  rw [List.map_map] at runs
  refine ⟨rfl, values.trans (congrArg Value.array runs), ?_⟩
  rw [values]
  exact congrArg Value.array runs

end Plan

end DocumentPath
