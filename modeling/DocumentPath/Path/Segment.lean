import DocumentPath.Path.Scanner
import DocumentPath.Path.Step
import DocumentPath.Value.Access

namespace DocumentPath

/-- Steps that are followed one after the other. -/
abbrev Segment := List Step

namespace Segment

/-- Reads steps with dots between them, such as `a.b."c d"`. -/
def ofDotted (path : String) : Segment :=
  if path = "" then [] else (splitOutside '.' path.toList).map Step.ofText

def text (segment : Segment) : String := String.join (List.map Step.text segment)

/-- Follows every step. A value that was worked out is no slot, and no slot lies below it. -/
def find? : Segment → Value → Option Value.Found
  | [], v => some (.slot v)
  | step :: steps, v =>
    match v.find? step.key with
    | none => none
    | some (.slot w) => find? steps w
    | some (.computed w) => (find? steps w).map fun found => .computed found.value

/-- The slot that the steps lead to. -/
def get? : Segment → Value → Option Value
  | [], v => some v
  | step :: steps, v => (v.get? step.key).bind (get? steps)

/-- Gives the slot that the steps lead to a new value; without such a slot nothing changes. -/
def put : Segment → Value → Value → Value
  | [], new, _ => new
  | step :: steps, new, v =>
    match v.get? step.key with
    | some w => v.put step.key (put steps new w)
    | none => v

/-- Where steps lead to a slot, what is put there is what they lead to from then on. -/
theorem get?_put {segment : Segment} {v old : Value} (h : get? segment v = some old) (new : Value) :
    get? segment (put segment new v) = some new := by
  induction segment generalizing v with
  | nil => rfl
  | cons step steps ih =>
    obtain ⟨w, hw, h⟩ := Option.bind_eq_some_iff.mp h
    simp only [put, hw, get?, Value.get?_put_self hw, Option.bind_some]
    exact ih h

/-- Putting back what is there changes nothing. -/
theorem put_get? {segment : Segment} {v old : Value} (h : get? segment v = some old) :
    put segment old v = v := by
  induction segment generalizing v with
  | nil =>
    cases h
    rfl
  | cons step steps ih =>
    obtain ⟨w, hw, h⟩ := Option.bind_eq_some_iff.mp h
    simp only [put, hw, ih h]
    exact Value.put_get? hw

/-- The later of two writes to one slot wins. -/
theorem put_put {segment : Segment} {v old : Value} (h : get? segment v = some old)
    (new newer : Value) : put segment newer (put segment new v) = put segment newer v := by
  induction segment generalizing v with
  | nil => rfl
  | cons step steps ih =>
    obtain ⟨w, hw, h⟩ := Option.bind_eq_some_iff.mp h
    simp only [put, hw, Value.get?_put_self hw, ih h, Value.put_put]

/-- The items of the array that the steps lead to. -/
def items? (segment : Segment) (v : Value) : Option (List Value) :=
  (get? segment v).bind Value.items?

/-- Reading comes to a slot exactly where writing does. -/
theorem find?_eq_slot_iff {segment : Segment} {v w : Value} :
    find? segment v = some (.slot w) ↔ get? segment v = some w := by
  induction segment generalizing v with
  | nil => simp [find?, get?]
  | cons step steps ih =>
    cases h : v.get? step.key with
    | some u => simp [find?, get?, Value.find?, h, ih]
    | none =>
      have computed : v.find? step.key = none ∨ ∃ u, v.find? step.key = some (.computed u) := by
        simp only [Value.find?, h]
        split
        · cases v.length? <;> simp
        · simp
      rcases computed with hf | ⟨u, hf⟩ <;> simp [find?, get?, hf, h]

/-- The items of the array that reading the steps leads to. What was worked out is no array of the
document. -/
def array? (segment : Segment) (v : Value) : Option (List Value) :=
  match find? segment v with
  | some (.slot w) => w.items?
  | _ => none

theorem array?_eq_items? (segment : Segment) (v : Value) : array? segment v = items? segment v := by
  cases h : get? segment v with
  | some w => simp [array?, items?, find?_eq_slot_iff.mpr h, h]
  | none =>
    have : ∀ w, find? segment v ≠ some (.slot w) := by
      intro w hw
      rw [find?_eq_slot_iff.mp hw] at h
      cases h
    rw [array?, items?, h]
    split
    · exact absurd ‹_› (this _)
    · rfl

theorem get?_of_items? {segment : Segment} {v : Value} {items : List Value}
    (h : items? segment v = some items) : get? segment v = some (.array items) := by
  obtain ⟨w, hw, h⟩ := Option.bind_eq_some_iff.mp h
  rw [hw, Value.items?_eq_some_iff.mp h]

theorem items?_put {segment : Segment} {v : Value} {items : List Value}
    (h : items? segment v = some items) (kept : List Value) :
    items? segment (put segment (.array kept) v) = some kept := by
  rw [items?, get?_put (get?_of_items? h)]
  rfl

theorem sizeOf_get? {segment : Segment} {v w : Value} (h : get? segment v = some w) :
    sizeOf w ≤ sizeOf v := by
  induction segment generalizing v with
  | nil =>
    cases h
    exact Nat.le_refl _
  | cons step steps ih =>
    obtain ⟨u, hu, h⟩ := Option.bind_eq_some_iff.mp h
    have := Value.sizeOf_get? hu
    have := ih h
    omega

theorem sizeOf_items? {segment : Segment} {v : Value} {items : List Value}
    (h : items? segment v = some items) : sizeOf items < sizeOf v := by
  obtain ⟨w, hw, h⟩ := Option.bind_eq_some_iff.mp h
  rw [Value.items?_eq_some_iff.mp h] at hw
  have := sizeOf_get? hw
  simp only [Value.array.sizeOf_spec] at this
  omega

theorem sizeOf_array? {segment : Segment} {v : Value} {items : List Value}
    (h : array? segment v = some items) : sizeOf items < sizeOf v :=
  sizeOf_items? (array?_eq_items? segment v ▸ h)

end Segment

end DocumentPath
