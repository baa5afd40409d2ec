import Mathlib.Data.List.Forall2
import DocumentPath.Proofs.Traversal.Matches

namespace DocumentPath

namespace Step

/-- The step to an item of an array, as it is read from the decimal text of the index. -/
def item (i : Nat) : Step := ofText (Text.decimal i)

theorem key_item (i : Nat) : (item i).key = String.ofList (Text.decimal i) := by
  have bare : unquoted? (Text.decimal i) = none := by
    rw [unquoted?.eq_2]
    rintro c cs h
    have : ('"' : Char).isDigit = true := Text.isDigit_of_mem_decimal (n := i) (by simp [h])
    exact absurd this (by decide)
  rw [item, ofText, bare]

end Step

theorem Value.get?_item (items : List Value) (i : Nat) :
    (Value.array items).get? (Step.item i).key = items[i]? := by
  rw [Value.get?, Step.key_item, String.toList_ofList, Text.readIndex?_decimal]
  rfl

theorem Value.put_item (items : List Value) (i : Nat) (new : Value) :
    (Value.array items).put (Step.item i).key new = .array (items.set i new) := by
  rw [Value.put, Step.key_item, String.toList_ofList, Text.readIndex?_decimal]

/-- The steps through levels with an index in place of each wildcard. -/
def Segment.through : List Level → List Nat → Segment
  | level :: deeper, i :: indices => Step.item i :: (level.continuation ++ through deeper indices)
  | _, _ => []

/-- The indices at which a traversal passes the wildcards, for each match one list. -/
def indicesFrom (context : Value) : List Level → List Value → List (List Nat)
  | [], _ => []
  | level :: deeper, items =>
    items.zipIdx.flatMap fun (item, i) =>
      if level.accepts context item then
        if deeper.isEmpty then [[i]]
        else (((Segment.array? level.continuation item).map (indicesFrom context deeper)).getD
          []).map (i :: ·)
      else []

def itemIndices (context : Value) (level : Level) (deeper : List Level) :
    Value × Nat → List (List Nat) := fun (item, i) =>
  if level.accepts context item then
    if deeper.isEmpty then [[i]]
    else (((Segment.array? level.continuation item).map (indicesFrom context deeper)).getD
      []).map (i :: ·)
  else []

variable {context : Value} {level : Level} {deeper : List Level} {items inner : List Value}
  {item : Value} {i : Nat}

theorem indicesFrom_cons (context : Value) (level : Level) (deeper : List Level)
    (items : List Value) :
    indicesFrom context (level :: deeper) items =
      items.zipIdx.flatMap (itemIndices context level deeper) := rfl

theorem indicesFrom_empty (context : Value) (levels : List Level) :
    indicesFrom context levels [] = [] := by
  cases levels <;> rfl

theorem itemIndices_of_not_accepts (h : ¬level.accepts context item = true) :
    itemIndices context level deeper (item, i) = [] := if_neg h

theorem itemIndices_last (h : level.accepts context item = true) :
    itemIndices context level [] (item, i) = [[i]] := by
  rw [itemIndices, if_pos h]
  rfl

theorem itemIndices_inner (h : level.accepts context item = true) (hd : deeper ≠ []) :
    itemIndices context level deeper (item, i) =
      (((Segment.items? level.continuation item).map (indicesFrom context deeper)).getD
        []).map (i :: ·) := by
  rw [itemIndices, if_pos h, if_neg (by simpa using hd), Segment.array?_eq_items?]

theorem exists_of_mem_itemIndices {indices : List Nat}
    (h : indices ∈ itemIndices context level deeper (item, i)) : ∃ behind, indices = i :: behind := by
  rw [itemIndices] at h
  split at h
  · split at h
    · exact ⟨[], List.mem_singleton.mp h⟩
    · obtain ⟨behind, _, rfl⟩ := List.mem_map.mp h
      exact ⟨behind, rfl⟩
  · cases h

/-- A traversal goes through the indices in ascending order, the outermost first. -/
theorem pairwise_indicesFrom (context : Value) (levels : List Level) (items : List Value) :
    (indicesFrom context levels items).Pairwise (· < ·) := by
  induction levels generalizing items with
  | nil => exact .nil
  | cons level deeper ih =>
    rw [indicesFrom_cons, List.pairwise_flatMap]
    constructor
    · rintro ⟨item, i⟩ _
      by_cases accepted : level.accepts context item = true
      · by_cases hd : deeper = []
        · subst hd
          rw [itemIndices_last accepted]
          exact List.pairwise_singleton _ _
        · rw [itemIndices_inner accepted hd]
          cases Segment.items? level.continuation item with
          | none => exact .nil
          | some inner =>
            refine List.pairwise_map.mpr ((ih inner).imp ?_)
            intro a b hab
            exact List.cons_lt_cons_self.mpr hab
      · rw [itemIndices_of_not_accepts accepted]
        exact .nil
    · have ascending : items.zipIdx.Pairwise fun x y => x.2 < y.2 := by
        rw [← List.pairwise_map (R := (· < ·)), List.zipIdx_map_snd]
        exact List.pairwise_lt_range'
      refine ascending.imp ?_
      rintro ⟨item, i⟩ ⟨other, j⟩ hij a ha b hb
      obtain ⟨_, rfl⟩ := exists_of_mem_itemIndices ha
      obtain ⟨_, rfl⟩ := exists_of_mem_itemIndices hb
      exact List.Lex.rel hij

theorem forall₂_flatMap {α β γ : Type} {R : β → γ → Prop} {f : α → List β} {g : α → List γ}
    {l : List α} (h : ∀ a ∈ l, List.Forall₂ R (f a) (g a)) :
    List.Forall₂ R (l.flatMap f) (l.flatMap g) := by
  induction l with
  | nil => exact .nil
  | cons a l ih =>
    rw [List.flatMap_cons, List.flatMap_cons]
    exact List.rel_append (h a (by simp)) (ih fun b hb => h b (by simp [hb]))

/-- There is an index for each of the levels, and the steps through them go to the element of the
match in its array and on behind it. -/
def LeadsFrom (levels : List Level) (v : Value) (segment : Segment) (indices : List Nat)
    (found : Match) : Prop :=
  indices.length = levels.length ∧ ∃ last ∈ levels.getLast?, ∃ steps,
    segment ++ Segment.through levels indices =
      steps ++ Step.item found.index :: last.continuation ∧
    Segment.items? steps v = some found.owner

namespace Segment

theorem get?_append (front behind : Segment) (v : Value) :
    get? (front ++ behind) v = (get? front v).bind (get? behind) := by
  induction front generalizing v with
  | nil => rfl
  | cons step steps ih =>
    rw [List.cons_append, get?, get?]
    cases v.get? step.key with
    | none => rfl
    | some w => exact ih w

theorem items?_append {front : Segment} {v w : Value} (h : get? front v = some w)
    (behind : Segment) : items? (front ++ behind) v = items? behind w := by
  rw [items?, get?_append, h]
  rfl

end Segment

theorem LeadsFrom.below {levels : List Level} {v w : Value} {front segment : Segment}
    {indices : List Nat} {found : Match} (h : LeadsFrom levels w segment indices found)
    (hw : Segment.get? front v = some w) :
    LeadsFrom levels v (front ++ segment) indices found := by
  obtain ⟨length, last, hlast, steps, route, owner⟩ := h
  refine ⟨length, last, hlast, front ++ steps, ?_, ?_⟩
  · rw [List.append_assoc, route, List.append_assoc]
  · rw [Segment.items?_append hw, owner]

/-- The indices of a traversal lead to its matches, one for one. -/
theorem leads_matchesFrom (levels : List Level) (items : List Value) :
    List.Forall₂ (LeadsFrom levels (.array items) []) (indicesFrom context levels items)
      (matchesFrom context levels items) := by
  induction levels generalizing items with
  | nil => exact .nil
  | cons level deeper ih =>
    rw [indicesFrom_cons, matchesFrom_cons]
    apply forall₂_flatMap
    rintro ⟨item, i⟩ hmem
    have hitem : items[i]? = some item := List.mem_zipIdx_iff_getElem?.mp hmem
    by_cases accepted : level.accepts context item = true
    · by_cases hd : deeper = []
      · subst hd
        rw [itemIndices_last accepted, itemMatches_last accepted]
        refine .cons ⟨rfl, level, rfl, [], ?_, rfl⟩ .nil
        simp [Segment.through]
      · rw [itemIndices_inner accepted hd, itemMatches_inner accepted hd,
          Segment.array?_eq_items?]
        cases hi : Segment.items? level.continuation item with
        | none => exact .nil
        | some inner =>
          have here : Segment.get? (Step.item i :: level.continuation) (.array items) =
              some (.array inner) := by
            rw [Segment.get?, Value.get?_item, hitem]
            exact Segment.get?_of_items? hi
          refine List.forall₂_map_left_iff.mpr ((ih inner).imp ?_)
          intro indices found h
          obtain ⟨length, last, hlast, steps, route, owner⟩ := h.below here
          refine ⟨by simpa using length, last, ?_, steps, ?_, owner⟩
          · rwa [List.getLast?_cons_of_ne_nil hd]
          · simpa [Segment.through] using route
    · rw [itemIndices_of_not_accepts accepted, itemMatches_of_not_accepts accepted]
      exact .nil

namespace Plan

/-- For each match of a plan the indices at which it passes the wildcards, in order. -/
def indices (plan : Plan) (data context : Value) : List (List Nat) :=
  indicesFrom context plan.levels ((Segment.array? plan.start data).getD [])

/-- The plan with an index in place of each wildcard. -/
def concrete (plan : Plan) (indices : List Nat) : Plan :=
  ⟨plan.path, plan.start ++ Segment.through plan.levels indices, []⟩

theorem indices_of_items? {plan : Plan} {data : Value} {items : List Value}
    (h : Segment.items? plan.start data = some items) (context : Value) :
    plan.indices data context = indicesFrom context plan.levels items := by
  rw [indices, Segment.array?_eq_items?, h]
  rfl

theorem indices_of_no_items {plan : Plan} {data : Value}
    (h : Segment.items? plan.start data = none) (context : Value) :
    plan.indices data context = [] := by
  rw [indices, Segment.array?_eq_items?, h]
  exact indicesFrom_empty context plan.levels

theorem pairwise_indices (plan : Plan) (data context : Value) :
    (plan.indices data context).Pairwise (· < ·) :=
  pairwise_indicesFrom context plan.levels _

/-- The indices lead to a match: they name its element in the array that owns it. -/
def Leads (plan : Plan) (data : Value) (indices : List Nat) (found : Match) : Prop :=
  LeadsFrom plan.levels data plan.start indices found

theorem leads_meaning (plan : Plan) (data context : Value) :
    List.Forall₂ (plan.Leads data) (plan.indices data context) (plan.meaning data context) := by
  cases hi : Segment.items? plan.start data with
  | none =>
    rw [indices_of_no_items hi, meaning_of_no_items hi]
    exact .nil
  | some items =>
    rw [indices_of_items? hi, meaning_of_items? hi]
    refine (leads_matchesFrom plan.levels items).imp ?_
    intro indices found h
    have := h.below (Segment.get?_of_items? hi)
    rwa [List.append_nil] at this

end Plan

end DocumentPath
