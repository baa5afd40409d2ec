import DocumentPath.Plan

namespace DocumentPath

/-- A value that a plan leads to, with the array that holds the last element on the way to it. -/
structure Match where
  value : Value
  owner : List Value
  index : Nat

/-- What the steps behind an element lead to, `null` where they lead nowhere. -/
def Segment.valueAt (segment : Segment) (v : Value) : Value :=
  ((Segment.find? segment v).map Value.Found.value).getD .null

/-- An array that is gone through, and how far. -/
structure Frame where
  owner : List Value
  index : Nat
  rest : List Value
  isRest : owner.drop index = rest

namespace Frame

/-- An array before its first item. -/
def enter (items : List Value) : Frame := ⟨items, 0, items, rfl⟩

/-- The same array behind its next item. -/
def advance (frame : Frame) {item : Value} {rest : List Value} (h : frame.rest = item :: rest) :
    Frame :=
  ⟨frame.owner, frame.index + 1, rest, by rw [← List.drop_drop, frame.isRest, h]; rfl⟩

end Frame

/-- A traversal in progress: the open arrays, the innermost first. The outermost stands at the first
level, and there is no array below the last. -/
structure Cursor (levels : List Level) where
  frames : List Frame
  fits : frames.length ≤ levels.length

namespace Cursor

variable {levels : List Level}

/-- An upper bound of the steps that are left. -/
noncomputable def weight (cursor : Cursor levels) : Nat :=
  cursor.frames.foldr (fun frame rest => sizeOf frame.rest + 1 + rest) 0

/-- The next match, if there is one, and the traversal behind it. -/
def next (context : Value) : Cursor levels → Option Match × Cursor levels
  | ⟨[], fits⟩ => (none, ⟨[], fits⟩)
  | ⟨frame :: outer, fits⟩ =>
    match _h : frame.rest with
    | [] => next context ⟨outer, Nat.le_of_succ_le fits⟩
    | item :: rest =>
      let here : List Frame := frame.advance _h :: outer
      let level := levels[outer.length]
      if level.accepts context item then
        if _last : outer.length + 1 = levels.length then
          (some ⟨level.continuation.valueAt item, frame.owner, frame.index⟩, ⟨here, fits⟩)
        else
          match _hi : Segment.array? level.continuation item with
          | some items =>
            next context ⟨.enter items :: here, Nat.lt_of_le_of_ne fits _last⟩
          | none => next context ⟨here, fits⟩
      else next context ⟨here, fits⟩
termination_by cursor => weight cursor
decreasing_by
  · simp [weight]
  · have := Segment.sizeOf_array? _hi
    simp only [weight, List.foldr_cons, Frame.enter, Frame.advance, _h, List.cons.sizeOf_spec]
    omega
  all_goals
    simp only [weight, List.foldr_cons, Frame.advance, _h, List.cons.sizeOf_spec]
    omega

/-- The first matches, no more than `limit`; what comes after them is not looked at. -/
def take (context : Value) : Nat → Cursor levels → List Match
  | 0, _ => []
  | limit + 1, cursor =>
    match next context cursor with
    | (some found, cursor) => found :: take context limit cursor
    | (none, _) => []

theorem weight_cons (frame : Frame) (outer : List Frame)
    (fits : (frame :: outer).length ≤ levels.length) :
    weight ⟨frame :: outer, fits⟩ =
      sizeOf frame.rest + 1 + weight (⟨outer, Nat.le_of_succ_le fits⟩ : Cursor levels) := rfl

theorem weight_next {context : Value} {cursor : Cursor levels} {found : Match}
    (h : (next context cursor).1 = some found) :
    (next context cursor).2.weight < cursor.weight := by
  fun_induction next context cursor with
  | case1 => cases h
  | case2 frame outer fits hr ih =>
    have := ih h
    rw [weight_cons]
    omega
  | case3 frame outer fits item rest hr here level _ _ =>
    simp only [here, weight_cons, Frame.advance, hr, List.cons.sizeOf_spec]
    omega
  | case4 frame outer fits item rest hr here level _ last items hi ih =>
    have smaller := ih h
    have := Segment.sizeOf_array? hi
    simp only [here, weight_cons, Frame.advance, Frame.enter, hr,
      List.cons.sizeOf_spec] at smaller ⊢
    omega
  | case5 frame outer fits item rest hr here level _ last hi ih =>
    have smaller := ih h
    simp only [here, weight_cons, Frame.advance, hr, List.cons.sizeOf_spec] at smaller ⊢
    omega
  | case6 frame outer fits item rest hr here level _ ih =>
    have smaller := ih h
    simp only [here, weight_cons, Frame.advance, hr, List.cons.sizeOf_spec] at smaller ⊢
    omega

/-- All matches that are left. -/
def toList (context : Value) (cursor : Cursor levels) : List Match :=
  match _h : next context cursor with
  | (some found, left) => found :: toList context left
  | (none, _) => []
termination_by cursor.weight
decreasing_by
  have := @weight_next _ context cursor found (by rw [_h])
  rwa [_h] at this

end Cursor

namespace Plan

/-- A traversal that stands before the first match. -/
def cursor (plan : Plan) (data : Value) : Cursor plan.levels :=
  if h : plan.isIterating then
    match Segment.array? plan.start data with
    | some items => ⟨[.enter items], by simpa [isIterating, Nat.one_le_iff_ne_zero] using h⟩
    | none => ⟨[], Nat.zero_le _⟩
  else ⟨[], Nat.zero_le _⟩

end Plan

end DocumentPath
