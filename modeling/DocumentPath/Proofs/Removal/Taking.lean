import DocumentPath.Proofs.Positions.Levels
import DocumentPath.Proofs.Positions.Shape
import DocumentPath.Proofs.Traversal.Enumeration
import DocumentPath.Removal

namespace DocumentPath

variable {context : Value}

def wholeArray : Level → List Value → List Target := fun _ _ => [.ok []]

namespace Level

def kept (level : Level) (context : Value) (items : List Value) : List Value :=
  items.filter fun item => !level.accepts context item

def taken (level : Level) (context : Value) (items : List Value) : List Value :=
  items.filter fun item => level.accepts context item

/-- Takes the items that a level accepts out of arrays, and collects them. -/
def takeOut (level : Level) (context : Value) : Mutator (List Value)
  | all, .array items => (.array (level.kept context items), all ++ level.taken context items)
  | all, v => (v, all)

end Level

theorem partition_eq (level : Level) (items : List Value) :
    items.partition (fun item => !level.accepts context item) =
      (level.kept context items, level.taken context items) := by
  simp [List.partition_eq_filter_filter, Level.kept, Level.taken, Function.comp_def]

/-- Writing that never meets an obstacle and collects something from every item. -/
theorem writeItems_collect (f : Value → Value × List Value) (all : List Value)
    (items : List Value) :
    writeItems (fun all item => ⟨(f item).1, all ++ (f item).2, none⟩) all items =
      ⟨items.map fun item => (f item).1, all ++ items.flatMap fun item => (f item).2, none⟩ := by
  induction items generalizing all with
  | nil => simp [writeItems]
  | cons item items ih => simp [writeItems, ih]

/-- Removal below one item of a level that is not the last. -/
def removeInside (context : Value) (level : Level) (deeper : List Level) (item : Value) :
    Value × List Value :=
  if level.accepts context item then
    match Segment.items? level.continuation item with
    | some inner =>
      (Segment.put level.continuation (.array (removeFrom context deeper inner).1) item,
        (removeFrom context deeper inner).2)
    | none => (item, [])
  else (item, [])

theorem removeFrom_inner {deeper : List Level} (h : deeper ≠ []) (level : Level)
    (items : List Value) :
    removeFrom context (level :: deeper) items =
      (items.map fun item => (removeInside context level deeper item).1,
        items.flatMap fun item => (removeInside context level deeper item).2) := by
  cases deeper with
  | nil => exact absurd rfl h
  | cons next deeper =>
    simp only [removeFrom, List.map_map, List.flatMap_map]
    rfl

/-- Removal is a write to the arrays of the last level. -/
theorem removeFrom_eq_visit {levels : List Level} {last : Level}
    (h : levels.getLast? = some last) (all items : List Value) :
    visit (last.takeOut context) all (.array items) (addresses context wholeArray levels items) =
      ⟨.array (removeFrom context levels items).1, all ++ (removeFrom context levels items).2,
        none⟩ := by
  induction levels generalizing all items with
  | nil => cases h
  | cons level deeper ih =>
    cases deeper with
    | nil =>
      cases h
      rw [addresses_last, removeFrom, partition_eq]
      rfl
    | cons next deeper =>
      rw [List.getLast?_cons_cons] at h
      have collected := writeItems_collect (removeInside context level (next :: deeper)) all items
      rw [addresses_inner (by simp), removeFrom_inner (by simp)]
      refine (visit_itemTargets ?_ all [] items).trans
        (congrArg (Outcome.map Value.array) collected)
      intro all item
      simp only [removeInside, innerTargets]
      by_cases accepted : level.accepts context item = true
      · simp only [if_pos accepted, Segment.items?_eq_arrayAt?]
        cases ha : Segment.arrayAt? level.continuation item with
        | none => simp [visit]
        | some found =>
          obtain ⟨p, inner⟩ := found
          have deep := visit_below (last.takeOut context) all (Segment.at?_of_arrayAt? ha)
            (addresses context wholeArray (next :: deeper) inner)
          rw [ih h] at deep
          simp only [deep, Option.map_some, Segment.put_of_arrayAt? ha]
          rfl
      · simp [if_neg accepted, visit]

end DocumentPath
