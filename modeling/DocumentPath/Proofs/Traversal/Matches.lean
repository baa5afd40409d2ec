import DocumentPath.Traversal

namespace DocumentPath

/-- The matches below the items of an array: those of each item that passes, in order. -/
def matchesFrom (context : Value) : List Level → List Value → List Match
  | [], _ => []
  | level :: deeper, owner =>
    owner.zipIdx.flatMap fun (item, index) =>
      if level.accepts context item then
        if deeper.isEmpty then [⟨level.continuation.valueAt item, owner, index⟩]
        else ((Segment.array? level.continuation item).map (matchesFrom context deeper)).getD []
      else []

/-- What a plan with wildcards means: the matches below the array that its start leads to. -/
def Plan.meaning (plan : Plan) (data context : Value) : List Match :=
  matchesFrom context plan.levels ((Segment.array? plan.start data).getD [])

def itemMatches (context : Value) (level : Level) (deeper : List Level) (owner : List Value) :
    Value × Nat → List Match := fun (item, index) =>
  if level.accepts context item then
    if deeper.isEmpty then [⟨level.continuation.valueAt item, owner, index⟩]
    else ((Segment.array? level.continuation item).map (matchesFrom context deeper)).getD []
  else []

theorem matchesFrom_cons (context : Value) (level : Level) (deeper : List Level)
    (owner : List Value) :
    matchesFrom context (level :: deeper) owner =
      owner.zipIdx.flatMap (itemMatches context level deeper owner) := rfl

theorem matchesFrom_empty (context : Value) (levels : List Level) :
    matchesFrom context levels [] = [] := by
  cases levels <;> rfl

variable {context : Value} {level : Level} {deeper : List Level} {owner : List Value}
  {item : Value} {index : Nat}

theorem itemMatches_of_not_accepts (h : ¬level.accepts context item = true) :
    itemMatches context level deeper owner (item, index) = [] := if_neg h

theorem itemMatches_last (h : level.accepts context item = true) :
    itemMatches context level [] owner (item, index) =
      [⟨level.continuation.valueAt item, owner, index⟩] := by
  rw [itemMatches, if_pos h]
  rfl

theorem itemMatches_inner (h : level.accepts context item = true) (hd : deeper ≠ []) :
    itemMatches context level deeper owner (item, index) =
      ((Segment.array? level.continuation item).map (matchesFrom context deeper)).getD [] := by
  rw [itemMatches, if_pos h, if_neg (by simpa using hd)]

namespace Plan

theorem meaning_of_items? {plan : Plan} {data : Value} {items : List Value}
    (h : Segment.items? plan.start data = some items) (context : Value) :
    plan.meaning data context = matchesFrom context plan.levels items := by
  rw [meaning, Segment.array?_eq_items?, h]
  rfl

theorem meaning_of_no_items {plan : Plan} {data : Value}
    (h : Segment.items? plan.start data = none) (context : Value) :
    plan.meaning data context = [] := by
  rw [meaning, Segment.array?_eq_items?, h]
  exact matchesFrom_empty context plan.levels

end Plan

/-- Every match stands for an item that the last level accepts, and has its value. -/
theorem mem_matchesFrom {levels : List Level} {found : Match}
    (h : found ∈ matchesFrom context levels owner) :
    ∃ last ∈ levels.getLast?, ∃ item, found.owner[found.index]? = some item ∧
      last.accepts context item = true ∧ found.value = last.continuation.valueAt item := by
  induction levels generalizing owner with
  | nil => simp [matchesFrom] at h
  | cons level deeper ih =>
    rw [matchesFrom_cons] at h
    obtain ⟨⟨item, index⟩, hmem, h⟩ := List.mem_flatMap.mp h
    by_cases accepted : level.accepts context item = true
    · by_cases hd : deeper = []
      · subst hd
        rw [itemMatches_last accepted] at h
        cases List.mem_singleton.mp h
        exact ⟨level, rfl, item, List.mem_zipIdx_iff_getElem?.mp hmem, accepted, rfl⟩
      · rw [itemMatches_inner accepted hd] at h
        cases harray : Segment.array? level.continuation item with
        | none => simp [harray] at h
        | some items =>
          rw [harray] at h
          obtain ⟨last, hlast, inner⟩ := ih h
          exact ⟨last, by rwa [List.getLast?_cons_of_ne_nil hd], inner⟩
    · rw [itemMatches_of_not_accepts accepted] at h
      simp at h

/-- The matches below the items of an array that are left. -/
def Frame.matches (context : Value) (frame : Frame) : List Level → List Match
  | [] => []
  | level :: deeper =>
    (frame.rest.zipIdx frame.index).flatMap (itemMatches context level deeper frame.owner)

theorem Frame.matches_enter (context : Value) (items : List Value) (levels : List Level) :
    (Frame.enter items).matches context levels = matchesFrom context levels items := by
  cases levels <;> rfl

theorem Frame.matches_nil {frame : Frame} (h : frame.rest = []) (levels : List Level) :
    frame.matches context levels = [] := by
  cases levels <;> simp [Frame.matches, h]

theorem Frame.matches_cons {frame : Frame} {rest : List Value} (h : frame.rest = item :: rest) :
    frame.matches context (level :: deeper) =
      itemMatches context level deeper frame.owner (item, frame.index) ++
        (frame.advance h).matches context (level :: deeper) := by
  simp only [Frame.matches, h, List.zipIdx_cons, List.flatMap_cons]
  rfl

namespace Cursor

variable {levels : List Level}

/-- The matches that a stack of open arrays still leads to: those below the innermost array come
first. How many arrays are open around an array tells its level. -/
def pending (context : Value) (levels : List Level) : List Frame → List Match
  | [] => []
  | frame :: outer =>
    frame.matches context (levels.drop outer.length) ++ pending context levels outer

def remaining (context : Value) (cursor : Cursor levels) : List Match :=
  pending context levels cursor.frames

theorem pending_item {frame : Frame} {outer : List Frame} {rest : List Value}
    (h : frame.rest = item :: rest) (hlt : outer.length < levels.length) :
    pending context levels (frame :: outer) =
      itemMatches context levels[outer.length] (levels.drop (outer.length + 1)) frame.owner
          (item, frame.index) ++
        pending context levels (frame.advance h :: outer) := by
  rw [pending, pending, List.drop_eq_getElem_cons hlt, Frame.matches_cons h, List.append_assoc]

theorem pending_enter (context : Value) (levels : List Level) (items : List Value)
    (frames : List Frame) :
    pending context levels (Frame.enter items :: frames) =
      matchesFrom context (levels.drop frames.length) items ++ pending context levels frames := by
  rw [pending, Frame.matches_enter]

theorem drop_ne_nil {n : Nat} (hle : n + 1 ≤ levels.length) (hne : n + 1 ≠ levels.length) :
    levels.drop (n + 1) ≠ [] := by
  intro h
  have := List.drop_eq_nil_iff.mp h
  omega

/-- One call takes the first of the matches that are left, if there is one. -/
theorem next_remaining (context : Value) (cursor : Cursor levels) :
    (next context cursor).1 = (cursor.remaining context).head? ∧
      (next context cursor).2.remaining context = (cursor.remaining context).tail := by
  fun_induction next context cursor with
  | case1 => exact ⟨rfl, rfl⟩
  | case2 frame outer fits hr ih =>
    -- the innermost array is through
    have same : remaining context ⟨frame :: outer, fits⟩ =
        remaining context (⟨outer, Nat.le_of_succ_le fits⟩ : Cursor levels) := by
      simp [remaining, pending, Frame.matches_nil hr]
    rwa [same]
  | case3 frame outer fits item rest hr here level accepted last =>
    have deepest : levels.drop (outer.length + 1) = [] := by simp [last]
    have found : remaining context ⟨frame :: outer, fits⟩ =
        ⟨level.continuation.valueAt item, frame.owner, frame.index⟩ ::
          remaining context (⟨here, fits⟩ : Cursor levels) := by
      rw [remaining, pending_item hr fits, deepest, itemMatches_last accepted]
      rfl
    rw [found]
    exact ⟨rfl, rfl⟩
  | case4 frame outer fits item rest hr here level accepted last items hi ih =>
    -- the matches of the item are those of the array that is opened
    have same : remaining context ⟨frame :: outer, fits⟩ =
        pending context levels (Frame.enter items :: here) := by
      rw [remaining, pending_item hr fits, itemMatches_inner accepted (drop_ne_nil fits last), hi,
        pending_enter]
      rfl
    rwa [same]
  | case5 frame outer fits item rest hr here level accepted last hi ih =>
    have same : remaining context ⟨frame :: outer, fits⟩ =
        remaining context (⟨here, fits⟩ : Cursor levels) := by
      rw [remaining, pending_item hr fits, itemMatches_inner accepted (drop_ne_nil fits last), hi]
      rfl
    rwa [same]
  | case6 frame outer fits item rest hr here level rejected ih =>
    have same : remaining context ⟨frame :: outer, fits⟩ =
        remaining context (⟨here, fits⟩ : Cursor levels) := by
      rw [remaining, pending_item hr fits, itemMatches_of_not_accepts rejected]
      rfl
    rwa [same]

end Cursor

end DocumentPath
