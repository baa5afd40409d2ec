import DocumentPath.Proofs.Evaluation.Containers
import DocumentPath.Proofs.Positions.Position

namespace DocumentPath

namespace Value

open Position (at?)

/-- Arrays and objects, which have a place for other values. -/
def isContainer (v : Value) : Bool := v.kind = .array || v.kind = .object

/-- Every object inside a value has each of its keys once. -/
def KeysOnce (v : Value) : Prop :=
  ∀ p members, at? p v = some (.object members) → (members.map Prod.fst).Nodup

/-- Two values are of one kind, and equal unless they are containers. -/
def Matches (v w : Value) : Prop := v.kind = w.kind ∧ (v.isContainer = false → v = w)

/-- Two values have the same positions with matching values at each of them. Only the order of members
is left open. -/
def Rearranged (v w : Value) : Prop := ∀ p, Option.Rel Matches (at? p v) (at? p w)

variable {u v w : Value} {b : Branch}

theorem isContainer_of_child? (h : v.child? b = some w) : v.isContainer = true := by
  cases v with
  | array => rfl
  | object => rfl
  | _ => cases h

theorem eq_none_of_rel {R : Value → Value → Prop} {a : Option Value} (h : Option.Rel R none a) :
    a = none := by
  cases h
  rfl

theorem Matches.refl (v : Value) : v.Matches v := ⟨rfl, fun _ => rfl⟩

theorem Matches.isContainer_eq (h : v.Matches w) : v.isContainer = w.isContainer := by
  rw [isContainer, isContainer, h.1]

theorem Matches.symm (h : v.Matches w) : w.Matches v :=
  ⟨h.1.symm, fun scalar => (h.2 (h.isContainer_eq.trans scalar)).symm⟩

theorem Rearranged.refl (v : Value) : v.Rearranged v := by
  intro p
  cases at? p v with
  | none => exact .none
  | some u => exact .some (Matches.refl u)

theorem Rearranged.symm (h : v.Rearranged w) : w.Rearranged v := by
  intro p
  generalize hv : at? p v = a, hw : at? p w = b
  cases hv ▸ hw ▸ h p with
  | none => exact .none
  | some same => exact .some same.symm

theorem Rearranged.top (h : v.Rearranged w) : v.Matches w := by
  have here : Option.Rel Matches (some v) (some w) := h []
  cases here with
  | some same => exact same

theorem Rearranged.child? (h : v.Rearranged w) (b : Branch) :
    Option.Rel Rearranged (v.child? b) (w.child? b) := by
  have below (p : Position) : Option.Rel Matches ((v.child? b).bind (at? p))
      ((w.child? b).bind (at? p)) := h (b :: p)
  cases hv : v.child? b <;> cases hw : w.child? b <;> simp only [hv, hw] at below
  · exact .none
  · cases below []
  · cases below []
  · exact .some below

theorem Rearranged.at? {p : Position} (h : v.Rearranged w) (here : at? p v = some u) :
    ∃ u', at? p w = some u' ∧ u.Rearranged u' := by
  have there := h p
  rw [here] at there
  obtain ⟨u', found, _⟩ := exists_of_rel there
  refine ⟨u', found, fun q => ?_⟩
  have below := h (p ++ q)
  rwa [Position.at?_append, Position.at?_append, here, found] at below

theorem Rearranged.length_eq {xs ys : List Value} (h : (array xs).Rearranged (array ys)) :
    xs.length = ys.length := by
  have bound (i : Nat) : xs.length ≤ i ↔ ys.length ≤ i := by
    have same : xs[i]?.isSome = ys[i]?.isSome := isSome_of_rel (h.child? (.item i))
    rw [← List.getElem?_eq_none_iff, ← List.getElem?_eq_none_iff, ← Option.not_isSome_iff_eq_none,
      ← Option.not_isSome_iff_eq_none, same]
  exact Nat.le_antisymm ((bound _).mpr (Nat.le_refl _)) ((bound _).mp (Nat.le_refl _))

theorem lookup_eq_of_perm {ms ns : List (String × Value)} (h : ms.Perm ns)
    (once : (ms.map Prod.fst).Nodup) (key : String) : ms.lookup key = ns.lookup key := by
  have once' : (ns.map Prod.fst).Nodup := (h.map Prod.fst).nodup_iff.mp once
  apply Option.ext
  intro v
  constructor
  · intro found
    exact lookup_of_mem once' (h.subset (mem_of_lookup found))
  · intro found
    exact lookup_of_mem once (h.symm.subset (mem_of_lookup found))

/-- The members of an object can be put in any order. -/
theorem rearranged_of_perm {ms ns : List (String × Value)} (h : ms.Perm ns)
    (once : (ms.map Prod.fst).Nodup) : (object ms).Rearranged (object ns) := by
  intro p
  cases p with
  | nil => exact .some ⟨rfl, fun scalar => by cases scalar⟩
  | cons b p =>
    have below : Position.at? (b :: p) (object ms) = Position.at? (b :: p) (object ns) := by
      cases b with
      | item i => rfl
      | member key =>
        rw [Position.at?, Position.at?, Value.child?, Value.child?, lookup_eq_of_perm h once]
    rw [below]
    exact Rearranged.refl _ (b :: p)

/-- In rearranged objects that have each key once the same keys stand in some order. -/
theorem Rearranged.perm_keys {ms ns : List (String × Value)}
    (h : (object ms).Rearranged (object ns)) (once : (object ms).KeysOnce)
    (once' : (object ns).KeysOnce) : (ms.map Prod.fst).Perm (ns.map Prod.fst) := by
  apply (List.perm_ext_iff_of_nodup (once [] ms rfl) (once' [] ns rfl)).mpr
  intro key
  have same : (ms.lookup key).isSome = (ns.lookup key).isSome :=
    isSome_of_rel (h.child? (.member key))
  rw [← lookup_isSome_iff, ← lookup_isSome_iff, same]

theorem keysOnce_of_scalar (h : v.isContainer = false) : v.KeysOnce := by
  intro p members found
  cases p with
  | nil =>
    cases found
    cases h
  | cons b p =>
    obtain ⟨w, here, _⟩ := Option.bind_eq_some_iff.mp found
    rw [isContainer_of_child? here] at h
    cases h

theorem keysOnce_array {items : List Value} (h : ∀ v ∈ items, v.KeysOnce) :
    (array items).KeysOnce := by
  intro p members found
  cases p with
  | nil => cases found
  | cons b p =>
    obtain ⟨v, here, below⟩ := Option.bind_eq_some_iff.mp found
    cases b with
    | member key => cases here
    | item i => exact h v (List.mem_of_getElem? here) p members below

theorem keysOnce_object {members : List (String × Value)} (once : (members.map Prod.fst).Nodup)
    (h : ∀ m ∈ members, m.2.KeysOnce) : (object members).KeysOnce := by
  intro p inner found
  cases p with
  | nil =>
    cases found
    exact once
  | cons b p =>
    obtain ⟨v, here, below⟩ := Option.bind_eq_some_iff.mp found
    cases b with
    | item i => cases here
    | member key => exact h (key, v) (mem_of_lookup here) p inner below

theorem KeysOnce.at? {p : Position} (h : v.KeysOnce) (here : at? p v = some u) : u.KeysOnce := by
  intro q members found
  apply h (p ++ q)
  rw [Position.at?_append, here]
  exact found

theorem KeysOnce.child? (h : v.KeysOnce) (here : v.child? b = some w) : w.KeysOnce := by
  have below : Position.at? [b] v = some w := by simp [Position.at?, here]
  exact h.at? below

end Value

end DocumentPath
