import Mathlib.Data.List.Forall2
import DocumentPath.Proofs.Positions.Levels
import DocumentPath.Proofs.Positions.Shape
import DocumentPath.Proofs.Traversal.Enumeration

namespace DocumentPath

variable {σ : Type} {context : Value}

def slotTargets (context : Value) (level : Level) (items : List Value) : List Target :=
  itemTargets (fun item =>
    if level.accepts context item then [Segment.target level.continuation item] else []) 0 items

theorem separate_slotTargets (level : Level) (items : List Value) :
    Separate (slotTargets context level items) := by
  apply separate_itemTargets
  intro item _
  split
  · exact List.pairwise_singleton _ _
  · exact .nil

theorem visit_target (mutator : Mutator σ) (state : σ) (segment : Segment) (v : Value) :
    visit mutator state v [segment.target v] =
      .ofWrite v state (writeAt mutator state segment v) := by
  rw [writeAt_eq]
  cases segment.target v <;> rfl

theorem writeLevels_eq_visit (mutator : Mutator σ) (levels : List Level) (state : σ)
    (items : List Value) :
    visit mutator state (.array items) (addresses context (slotTargets context) levels items) =
      (writeLevels mutator context levels state items).map .array := by
  induction levels generalizing state items with
  | nil => rfl
  | cons level deeper ih =>
    cases deeper with
    | nil =>
      rw [addresses_last, slotTargets]
      refine visit_itemTargets ?_ state [] items
      intro state item
      split
      · rw [visit_target]
      · rfl
    | cons next deeper =>
      rw [addresses_inner (by simp)]
      refine visit_itemTargets ?_ state [] items
      intro state item
      rw [innerTargets]
      by_cases accepted : level.accepts context item = true
      · simp only [if_pos accepted, Segment.items?_eq_arrayAt?]
        cases ha : Segment.arrayAt? level.continuation item with
        | none => rfl
        | some found =>
          obtain ⟨p, inner⟩ := found
          have deep := visit_below mutator state (Segment.at?_of_arrayAt? ha)
            (addresses context (slotTargets context) (next :: deeper) inner)
          rw [ih] at deep
          simp only [deep, Option.map_some, Segment.put_of_arrayAt? ha]
          rfl
      · simp only [if_neg accepted]
        rfl

namespace Plan

/-- Where writing through a plan ends up, in order. -/
def targets (plan : Plan) (data context : Value) : List Target :=
  if plan.isIterating then
    match Segment.arrayAt? plan.start data with
    | some (p, items) =>
      (addresses context (slotTargets context) plan.levels items).map (Target.below p)
    | none => []
  else [plan.start.target data]

/-- The slots that a plan addresses, in order. -/
def slots (plan : Plan) (data context : Value) : List Position :=
  reached (plan.targets data context)

theorem separate_targets (plan : Plan) (data context : Value) :
    Separate (plan.targets data context) := by
  rw [targets]
  split
  · split
    · exact (separate_addresses separate_slotTargets _ _).below _
    · exact .nil
  · exact List.pairwise_singleton _ _

/-- All targets of a plan are known before the first of them is written to. -/
theorem write_eq_visit (plan : Plan) (mutator : Mutator σ) (state : σ) (data context : Value) :
    plan.write mutator state data context =
      visit mutator state data (plan.targets data context) := by
  rw [write, targets]
  by_cases h : plan.isIterating = true
  · simp only [if_pos h, Segment.items?_eq_arrayAt?]
    cases ha : Segment.arrayAt? plan.start data with
    | none => rfl
    | some found =>
      obtain ⟨p, items⟩ := found
      have below := visit_below mutator state (Segment.at?_of_arrayAt? ha)
        (addresses context (slotTargets context) plan.levels items)
      rw [writeLevels_eq_visit] at below
      simp only [below, Option.map_some, Segment.put_of_arrayAt? ha]
      rfl
  · simp only [if_neg h, visit_target]

end Plan

end DocumentPath
