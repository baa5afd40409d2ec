import Mathlib.Data.List.Basic
import DocumentPath.Proofs.Removal.Taking

namespace DocumentPath

variable {context : Value}

theorem reached_below (q : Position) (targets : List Target) :
    reached (targets.map (Target.below q)) = (reached targets).map (q ++ ·) := by
  rw [reached, reached, List.filterMap_map, List.map_filterMap]
  apply List.filterMap_congr
  intro t _
  cases t <;> rfl

theorem reached_itemTargets (targets : Value → List Target) (start : Nat) (items : List Value) :
    reached (itemTargets targets start items) =
      (items.zipIdx start).flatMap fun (item, i) =>
        (reached (targets item)).map ([.item i] ++ ·) := by
  rw [reached, itemTargets, List.filterMap_flatMap]
  apply List.flatMap_congr
  intro entry _
  exact reached_below _ _

def itemsAt (v : Value) (p : Position) : List Value :=
  ((Position.at? p v).bind Value.items?).getD []

theorem itemsAt_append {v w : Value} {p : Position} (h : Position.at? p v = some w)
    (q : Position) : itemsAt v (p ++ q) = itemsAt w q := by
  rw [itemsAt, Position.at?_append, h]
  rfl

/-- The positions of the arrays that the last of some levels goes through. -/
def ownersBelow (context : Value) (levels : List Level) (items : List Value) : List Position :=
  reached (addresses context wholeArray levels items)

theorem ownersBelow_last (level : Level) (items : List Value) :
    ownersBelow context [level] items = [[]] := rfl

/-- The positions of those arrays in one item of a level that is not the last. -/
def itemOwners (context : Value) (level : Level) (deeper : List Level) (item : Value) :
    List Position :=
  if level.accepts context item then
    match Segment.arrayAt? level.continuation item with
    | some (p, inner) => (ownersBelow context deeper inner).map (p ++ ·)
    | none => []
  else []

theorem reached_innerTargets (level : Level) (deeper : List Level) (item : Value) :
    reached (innerTargets context wholeArray level deeper item) =
      itemOwners context level deeper item := by
  unfold innerTargets itemOwners
  split
  · cases Segment.arrayAt? level.continuation item with
    | none => rfl
    | some found => exact reached_below _ _
  · rfl

theorem ownersBelow_inner {deeper : List Level} (h : deeper ≠ []) (level : Level)
    (items : List Value) :
    ownersBelow context (level :: deeper) items =
      items.zipIdx.flatMap fun (item, i) =>
        (itemOwners context level deeper item).map ([.item i] ++ ·) := by
  rw [ownersBelow, addresses_inner h, reached_itemTargets]
  simp only [reached_innerTargets]

/-- Arrays stand at those positions. -/
theorem at?_of_mem_ownersBelow {levels : List Level} {items : List Value} {p : Position}
    (h : p ∈ ownersBelow context levels items) :
    Position.at? p (.array items) = some (.array (itemsAt (.array items) p)) := by
  induction levels generalizing items p with
  | nil => simp [ownersBelow, addresses, reached] at h
  | cons level deeper ih =>
    by_cases hd : deeper = []
    · subst hd
      rw [ownersBelow_last] at h
      cases List.mem_singleton.mp h
      rfl
    · rw [ownersBelow_inner hd] at h
      obtain ⟨⟨item, i⟩, hmem, h⟩ := List.mem_flatMap.mp h
      obtain ⟨r, hr, rfl⟩ := List.mem_map.mp h
      have here := at?_item hmem
      rw [itemOwners] at hr
      split at hr
      · cases ha : Segment.arrayAt? level.continuation item with
        | none => simp [ha] at hr
        | some found =>
          obtain ⟨q, inner⟩ := found
          simp only [ha] at hr
          obtain ⟨s, hs, rfl⟩ := List.mem_map.mp hr
          have array := Segment.at?_of_arrayAt? ha
          rw [itemsAt_append here, itemsAt_append array, Position.at?_append, here,
            Option.bind_some, Position.at?_append, array]
          exact ih hs
      · simp at hr

/-- All matches come from those arrays, array by array. -/
theorem matchesFrom_eq_flatMap {levels : List Level} {last : Level}
    (h : levels.getLast? = some last) (items : List Value) :
    matchesFrom context levels items =
      (ownersBelow context levels items).flatMap fun p =>
        matchesFrom context [last] (itemsAt (.array items) p) := by
  induction levels generalizing items with
  | nil => cases h
  | cons level deeper ih =>
    by_cases hd : deeper = []
    · subst hd
      cases h
      rw [ownersBelow_last, List.flatMap_singleton]
      rfl
    · rw [List.getLast?_cons_of_ne_nil hd] at h
      rw [matchesFrom_cons, ownersBelow_inner hd, List.flatMap_assoc]
      apply List.flatMap_congr
      rintro ⟨item, i⟩ hmem
      have here := at?_item hmem
      rw [List.flatMap_map]
      simp only [itemsAt_append here]
      by_cases accepted : level.accepts context item = true
      · rw [itemMatches_inner accepted hd, itemOwners, if_pos accepted,
          Segment.array?_eq_items?, Segment.items?_eq_arrayAt?]
        cases ha : Segment.arrayAt? level.continuation item with
        | none => rfl
        | some found =>
          obtain ⟨q, inner⟩ := found
          have array := Segment.at?_of_arrayAt? ha
          simp only [List.flatMap_map, itemsAt_append array]
          exact ih h inner
      · rw [itemMatches_of_not_accepts accepted, itemOwners, if_neg accepted]
        rfl

end DocumentPath
