import DocumentPath.Proofs.Positions.Visiting

namespace DocumentPath

namespace Value

/-- The second value is what the first may become while something inside it is written: an array
keeps its length and an object its keys, but for some that are new. -/
def KeepsShape (added : String → Prop) (v w : Value) : Prop :=
  match v with
  | .array items => ∃ items', w = .array items' ∧ items'.length = items.length
  | .object members => ∃ members', w = .object members' ∧
    ∀ key, (members'.lookup key).isSome = true ↔ (members.lookup key).isSome = true ∨ added key
  | v => w = v

theorem KeepsShape.congr {added added' : String → Prop} {v w : Value}
    (h : KeepsShape added v w) (same : ∀ key, (v.child? (.member key)).isSome = true ∨ added key ↔
      (v.child? (.member key)).isSome = true ∨ added' key) : KeepsShape added' v w := by
  cases v with
  | object members =>
    obtain ⟨members', rfl, keys⟩ := h
    exact ⟨members', rfl, fun key => (keys key).trans (same key)⟩
  | _ => exact h

theorem KeepsShape.refl (v : Value) : KeepsShape (fun _ => False) v v := by
  cases v with
  | array items => exact ⟨items, rfl, rfl⟩
  | object members => exact ⟨members, rfl, by simp⟩
  | _ => rfl

theorem KeepsShape.trans {added added' : String → Prop} {u v w : Value}
    (h : KeepsShape added u v) (h' : KeepsShape added' v w) :
    KeepsShape (fun key => added key ∨ added' key) u w := by
  cases u with
  | array items =>
    obtain ⟨items', rfl, length⟩ := h
    obtain ⟨items'', rfl, length'⟩ := h'
    exact ⟨items'', rfl, length'.trans length⟩
  | object members =>
    obtain ⟨members', rfl, keys⟩ := h
    obtain ⟨members'', rfl, keys'⟩ := h'
    refine ⟨members'', rfl, fun key => ?_⟩
    rw [keys', keys, or_assoc]
  | _ =>
    cases h
    exact h'

theorem keepsShape_setChild (v : Value) (b : Branch) (new : Value) :
    KeepsShape (fun key => v.hasSlot b = true ∧ b = .member key) v (v.setChild b new) := by
  cases v with
  | array items => cases b <;> simp [KeepsShape, setChild]
  | object members =>
    cases b with
    | item i => exact ⟨members, rfl, by simp [hasSlot]⟩
    | member k =>
      refine ⟨Members.set k new members, rfl, fun key => ?_⟩
      by_cases he : key = k
      · subst he
        simp [Members.lookup_set_self, hasSlot]
      · simp [Members.lookup_set_ne he, hasSlot, Ne.symm he]
  | _ => cases b <;> rfl

end Value

namespace Position

theorem keepsShape_setAt (b : Branch) (r : Position) (new v : Value) :
    Value.KeepsShape (fun key => b :: r = [.member key] ∧ IsSlot (b :: r) v) v
      (setAt (b :: r) new v) := by
  cases hc : v.child? b with
  | some w =>
    have room := Value.hasSlot_of_child? hc
    rw [setAt_cons_of_child? hc]
    refine (Value.keepsShape_setChild v b _).congr fun key => ?_
    by_cases hb : b = .member key
    · subst hb
      simp [hc]
    · simp [hb]
  | none =>
    rw [setAt, hc]
    by_cases hr : r = []
    · subst hr
      refine (Value.keepsShape_setChild v b new).congr fun key => ?_
      simp [IsSlot, hc, and_comm]
    · simp only [if_neg hr]
      refine (Value.KeepsShape.refl v).congr fun key => ?_
      simp [hr]

/-- A write inside a value keeps its shape. -/
theorem keepsShape_below {p q : Position} {v w : Value} (h : at? q v = some w)
    (hne : p ≠ []) (new : Value) :
    ∃ w', at? q (setAt (q ++ p) new v) = some w' ∧
      w.KeepsShape (fun key => p = [.member key] ∧ IsSlot p w) w' := by
  cases p with
  | nil => exact absurd rfl hne
  | cons b r =>
    refine ⟨setAt (b :: r) new w, ?_, keepsShape_setAt b r new w⟩
    rw [setAt_append h, at?_setAt_self (isSlot_of_at? h)]

theorem isSlot_of_append {p q : Position} {v w : Value} (h : at? q v = some w)
    (hp : IsSlot (q ++ p) v) : IsSlot p w := by
  induction q generalizing v with
  | nil =>
    cases h
    exact hp
  | cons b q ih =>
    obtain ⟨u, hu, h⟩ := Option.bind_eq_some_iff.mp h
    rw [List.cons_append, IsSlot, hu] at hp
    exact ih h hp

/-- Filling positions keeps the shape of everything they lie in or apart from. The members that
come new are among them. -/
theorem keepsShape_fill {slots : List Position} (apart : slots.Pairwise Apart) {data : Value}
    (room : ∀ p ∈ slots, IsSlot p data) {vs : List Value} (length : vs.length = slots.length)
    {q : Position} (outside : ∀ p ∈ slots, ¬p <+: q) {v : Value} (h : at? q data = some v) :
    ∃ w, at? q (fill data slots vs) = some w ∧
      v.KeepsShape (fun key => q ++ [.member key] ∈ slots) w := by
  induction slots generalizing data vs v with
  | nil =>
    rw [fill]
    exact ⟨v, h, by simpa using Value.KeepsShape.refl v⟩
  | cons p slots ih =>
    cases vs with
    | nil => simp at length
    | cons new vs =>
      obtain ⟨first, rest⟩ := List.pairwise_cons.mp apart
      have here : ∃ w, at? q (setAt p new data) = some w ∧
          v.KeepsShape (fun key => q ++ [.member key] = p) w := by
        -- the write is inside what stands at `q`, or apart from it
        by_cases hp : q <+: p
        · obtain ⟨r, rfl⟩ := hp
          have hne : r ≠ [] := by
            rintro rfl
            exact outside q (by simp) (by simp)
          obtain ⟨w, hw, shape⟩ := keepsShape_below h hne new
          have slot := isSlot_of_append h (room (q ++ r) (by simp))
          refine ⟨w, hw, shape.congr fun key => ?_⟩
          have same : q ++ [.member key] = q ++ r ↔ r = [.member key] := by
            rw [List.append_cancel_left_eq, eq_comm]
          rw [same, and_iff_left slot]
        · have hapart : Apart p q := ⟨outside p (by simp), hp⟩
          refine ⟨v, by rw [at?_setAt_of_apart hapart, h], ?_⟩
          refine (Value.KeepsShape.refl v).congr fun key => ?_
          have : q ++ [.member key] ≠ p := by
            rintro rfl
            exact hp (List.prefix_append _ _)
          simp [this]
      obtain ⟨w, hw, shape⟩ := here
      have kept : ∀ p' ∈ slots, IsSlot p' (setAt p new data) := fun p' hp' =>
        isSlot_setAt_of_apart (first p' hp') new (room p' (by simp [hp']))
      obtain ⟨u, hu, shape'⟩ := ih rest kept (by simpa using length)
        (fun p' hp' => outside p' (by simp [hp'])) hw
      refine ⟨u, by rwa [fill], (shape.trans shape').congr fun key => ?_⟩
      simp

end Position

end DocumentPath
