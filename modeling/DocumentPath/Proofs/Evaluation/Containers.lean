import Mathlib.Data.List.Forall2
import Mathlib.Data.List.Perm.Subperm
import Mathlib.Logic.Relation
import DocumentPath.Evaluation.Application
import DocumentPath.Members

namespace DocumentPath

namespace Value

/-- Arrays of one length, or objects with the same keys. -/
def SameShape : Value → Value → Prop
  | .array xs, .array ys => xs.length = ys.length
  | .object ms, .object ns => ms.length = ns.length ∧ ∀ m ∈ ms, (ns.lookup m.1).isSome = true
  | _, _ => False

/-- Two values stand at the same place of two containers. -/
inductive Beside : Value × Value → Value × Value → Prop
  | item {xs ys : List Value} {x y : Value} :
    (x, y) ∈ xs.zip ys → Beside (.array xs, .array ys) (x, y)
  | member {ms ns : List (String × Value)} {m : String × Value} {w : Value} :
    m ∈ ms → ns.lookup m.1 = some w → Beside (.object ms, .object ns) (m.2, w)

/-- Equality of content at every depth: strictly equal values are alike, and containers are where
all that stands in them is. -/
inductive Alike : Value → Value → Prop
  | equal {v w : Value} : strictEq v w = true → Alike v w
  | inside {v w : Value} : SameShape v w → (∀ p, Beside (v, w) p → Alike p.1 p.2) → Alike v w

variable {v w : Value} {xs ys : List Value} {ms ns : List (String × Value)}

section Levels

variable {R : Value → Value → Prop}

theorem forall_beside_items :
    SameShape (.array xs) (.array ys) ∧ (∀ p, Beside (.array xs, .array ys) p → R p.1 p.2) ↔
      List.Forall₂ R xs ys := by
  rw [List.forall₂_iff_zip]
  refine and_congr_right fun _ => ⟨fun h x y here => h _ (.item here), fun h p beside => ?_⟩
  cases beside with
  | item here => exact h here

theorem forall_beside_members :
    SameShape (.object ms) (.object ns) ∧ (∀ p, Beside (.object ms, .object ns) p → R p.1 p.2) ↔
      ms.length = ns.length ∧ ∀ m ∈ ms, ∃ w, ns.lookup m.1 = some w ∧ R m.2 w := by
  rw [SameShape, and_assoc]
  refine and_congr_right fun _ => ⟨fun h m here => ?_, fun h => ⟨fun m here => ?_, fun p beside => ?_⟩⟩
  · obtain ⟨w, found⟩ := Option.isSome_iff_exists.mp (h.1 m here)
    exact ⟨w, found, h.2 _ (.member here found)⟩
  · obtain ⟨w, found, _⟩ := h m here
    exact Option.isSome_of_mem found
  · cases beside with
    | member here found =>
      obtain ⟨w, found', related⟩ := h _ here
      rwa [Option.some_inj.mp (found.symm.trans found')]

/-- What is asked of two values inside containers: they are equal and of one kind. -/
def InnerEqual (v w : Value) : Prop := v.kind = w.kind ∧ strictEq v w = true

theorem innerEqual_eq_same : InnerEqual = fun v w => same v w = true := by
  funext v w
  cases v <;> cases w <;> simp [InnerEqual, same, strictEq, kind, toFloat?]

theorem sameItems_iff (xs ys : List Value) :
    sameItems xs ys = true ↔ List.Forall₂ (fun x y => same x y = true) xs ys := by
  induction xs generalizing ys with
  | nil => cases ys <;> simp [sameItems]
  | cons x xs ih => cases ys <;> simp [sameItems, ih]

theorem sameMembers_iff (ms ns : List (String × Value)) :
    sameMembers ms ns = true ↔ ∀ m ∈ ms, ∃ w, ns.lookup m.1 = some w ∧ same m.2 w = true := by
  induction ms with
  | nil => simp [sameMembers]
  | cons m ms ih =>
    rw [sameMembers, Bool.and_eq_true, ih, List.forall_mem_cons]
    cases ns.lookup m.1 <;> simp

theorem strictEq_items (xs ys : List Value) :
    strictEq (.array xs) (.array ys) = true ↔ List.Forall₂ InnerEqual xs ys := by
  rw [innerEqual_eq_same]
  exact sameItems_iff xs ys

theorem strictEq_members (ms ns : List (String × Value)) :
    strictEq (.object ms) (.object ns) = true ↔
      ms.length = ns.length ∧ ∀ m ∈ ms, ∃ w, ns.lookup m.1 = some w ∧ InnerEqual m.2 w := by
  change (ms.length == ns.length && sameMembers ms ns) = true ↔ _
  rw [innerEqual_eq_same, Bool.and_eq_true, beq_iff_eq, sameMembers_iff]

theorem strictEq_of_shape (shape : SameShape v w) :
    strictEq v w = true ↔ ∀ p, Beside (v, w) p → InnerEqual p.1 p.2 := by
  cases v <;> cases w <;> try exact shape.elim
  case array.array xs ys =>
    rw [strictEq_items, ← forall_beside_items, and_iff_right shape]
  case object.object ms ns =>
    rw [strictEq_members, ← forall_beside_members, and_iff_right shape]

theorem sameShape_of_strictEq {p : Value × Value} (beside : Beside (v, w) p)
    (h : strictEq v w = true) : SameShape v w := by
  cases beside with
  | item => exact (forall_beside_items.mpr ((strictEq_items _ _).mp h)).1
  | member => exact (forall_beside_members.mpr ((strictEq_members _ _).mp h)).1

end Levels

open Relation (TransGen)

/-- All that stands beside each other inside equal values is equal and of one kind. -/
theorem strictEq_inside (h : strictEq v w = true) {p : Value × Value}
    (inside : TransGen Beside (v, w) p) : InnerEqual p.1 p.2 := by
  induction inside with
  | single beside => exact (strictEq_of_shape (sameShape_of_strictEq beside h)).mp h _ beside
  | tail _ beside ih =>
    exact (strictEq_of_shape (sameShape_of_strictEq beside ih.2)).mp ih.2 _ beside

/-- Strict equality is equality of content where no integer stands beside a float. -/
theorem strictEq_iff_alike (v w : Value) :
    strictEq v w = true ↔
      Alike v w ∧ ∀ p, TransGen Beside (v, w) p → p.1.kind = p.2.kind := by
  constructor
  · intro h
    exact ⟨.equal h, fun p inside => (strictEq_inside h inside).1⟩
  · rintro ⟨alike, kinds⟩
    induction alike with
    | equal h => exact h
    | @inside v w shape _ ih =>
      rw [strictEq_of_shape shape]
      intro p beside
      exact ⟨kinds p (.single beside), ih p beside fun q inside => kinds q (.head beside inside)⟩

section Contents

theorem alike_of_shape (shape : SameShape v w) :
    Alike v w ↔ ∀ p, Beside (v, w) p → Alike p.1 p.2 := by
  constructor
  · intro h p beside
    cases h with
    | equal h => exact .equal ((strictEq_of_shape shape).mp h p beside).2
    | inside _ h => exact h p beside
  · exact .inside shape

theorem alike_items (xs ys : List Value) :
    Alike (.array xs) (.array ys) ↔ List.Forall₂ Alike xs ys := by
  rw [← forall_beside_items]
  constructor
  · intro h
    have shape : SameShape (.array xs) (.array ys) := by
      cases h with
      | equal h => exact ((strictEq_items xs ys).mp h).length_eq
      | inside shape => exact shape
    exact ⟨shape, (alike_of_shape shape).mp h⟩
  · exact fun h => .inside h.1 h.2

theorem alike_members (ms ns : List (String × Value)) :
    Alike (.object ms) (.object ns) ↔
      ms.length = ns.length ∧ ∀ m ∈ ms, ∃ w, ns.lookup m.1 = some w ∧ Alike m.2 w := by
  rw [← forall_beside_members]
  constructor
  · intro h
    have shape : SameShape (.object ms) (.object ns) := by
      cases h with
      | equal h => exact (forall_beside_members.mpr ((strictEq_members ms ns).mp h)).1
      | inside shape => exact shape
    exact ⟨shape, (alike_of_shape shape).mp h⟩
  · exact fun h => .inside h.1 h.2

end Contents

section Keys

variable {key : String} {R : Value → Value → Prop}

theorem lookup_isSome_iff : (ms.lookup key).isSome = true ↔ key ∈ ms.map Prod.fst := by
  rw [List.lookup_isSome_iff, List.mem_map]
  simp only [beq_iff_eq, @eq_comm _ key]

theorem lookup_of_mem (unique : (ms.map Prod.fst).Nodup) {m : String × Value} (h : m ∈ ms) :
    ms.lookup m.1 = some m.2 := by
  induction ms with
  | nil => cases h
  | cons n ms ih =>
    rw [List.map_cons, List.nodup_cons] at unique
    rw [Members.lookup_cons]
    rcases List.mem_cons.mp h with rfl | h
    · rw [if_pos rfl]
    · have other : m.1 ≠ n.1 := fun same => unique.1 (same ▸ List.mem_map_of_mem h)
      rw [if_neg other, ih unique.2 h]

theorem mem_of_lookup (h : ms.lookup key = some v) : (key, v) ∈ ms := by
  obtain ⟨before, after, rfl, _⟩ := List.lookup_eq_some_iff.mp h
  exact List.mem_append_right _ (List.mem_cons_self ..)

theorem isSome_of_rel {a b : Option Value} (h : Option.Rel R a b) : a.isSome = b.isSome := by
  cases h <;> rfl

theorem exists_of_rel {b : Option Value} (h : Option.Rel R (some v) b) : ∃ w, b = some w ∧ R v w := by
  cases h with
  | some related => exact ⟨_, rfl, related⟩

/-- Objects that have each key once are compared key by key. -/
theorem members_iff_rel (hm : (ms.map Prod.fst).Nodup) (hn : (ns.map Prod.fst).Nodup) :
    (ms.length = ns.length ∧ ∀ m ∈ ms, ∃ w, ns.lookup m.1 = some w ∧ R m.2 w) ↔
      ∀ key, Option.Rel R (ms.lookup key) (ns.lookup key) := by
  constructor
  · rintro ⟨length, members⟩ key
    have keys : ms.map Prod.fst ⊆ ns.map Prod.fst := by
      intro key here
      obtain ⟨m, hm, rfl⟩ := List.mem_map.mp here
      obtain ⟨w, found, _⟩ := members m hm
      exact lookup_isSome_iff.mp (Option.isSome_of_mem found)
    have same : (ms.map Prod.fst).Perm (ns.map Prod.fst) :=
      (hm.subperm keys).perm_of_length_le (by simp [length])
    cases found : ms.lookup key with
    | some v =>
      obtain ⟨w, found', related⟩ := members _ (mem_of_lookup found)
      rw [show ns.lookup key = some w from found']
      exact .some related
    | none =>
      have missing : ns.lookup key = none := by
        rw [← Option.not_isSome_iff_eq_none, lookup_isSome_iff, ← same.mem_iff, ← lookup_isSome_iff,
          found]
        exact Bool.false_ne_true
      rw [missing]
      exact .none
  · intro related
    have keys (key : String) : key ∈ ms.map Prod.fst ↔ key ∈ ns.map Prod.fst := by
      rw [← lookup_isSome_iff, ← lookup_isSome_iff, isSome_of_rel (related key)]
    have same := (List.perm_ext_iff_of_nodup hm hn).mpr keys
    refine ⟨by simpa using same.length_eq, fun m here => ?_⟩
    exact exists_of_rel (lookup_of_mem hm here ▸ related m.1)

end Keys

/-- Strict equality is equality of content where, inside, what stands at the same place is of one kind
as well: arrays are compared item by item, objects key by key, and there an integer equals no float.
Membership in an array and the loose equality of containers go by it. -/
theorem strictEq_structure (v w : Value) (xs ys : List Value) {ms ns : List (String × Value)}
    (hm : (ms.map Prod.fst).Nodup) (hn : (ns.map Prod.fst).Nodup) :
    (strictEq v w = true ↔
      Alike v w ∧ ∀ p, TransGen Beside (v, w) p → p.1.kind = p.2.kind) ∧
    (Alike (.array xs) (.array ys) ↔ List.Forall₂ Alike xs ys) ∧
    (strictEq (.array xs) (.array ys) = true ↔
      List.Forall₂ (fun x y => x.kind = y.kind ∧ strictEq x y = true) xs ys) ∧
    (Alike (.object ms) (.object ns) ↔
      ∀ key, Option.Rel Alike (ms.lookup key) (ns.lookup key)) ∧
    (strictEq (.object ms) (.object ns) = true ↔
      ∀ key, Option.Rel (fun x y => x.kind = y.kind ∧ strictEq x y = true) (ms.lookup key)
        (ns.lookup key)) ∧
    (isWithin v (.array xs) = true ↔
      ∃ x ∈ xs, Alike x v ∧ ∀ p, TransGen Beside (x, v) p → p.1.kind = p.2.kind) ∧
    (v.kind = .array ∨ v.kind = .object → looseEq v w = strictEq v w) := by
  refine ⟨strictEq_iff_alike v w, alike_items xs ys, strictEq_items xs ys, ?_, ?_, ?_, ?_⟩
  · rw [alike_members, members_iff_rel hm hn]
  · rw [strictEq_members, members_iff_rel hm hn]
    rfl
  · simp only [isWithin, List.any_eq_true, strictEq_iff_alike]
  · intro container
    cases v <;> simp only [kind, reduceCtorEq, or_self] at container
    case array => simp [looseEq, numeral?]
    case object => simp [looseEq, numeral?]

theorem strictEq_structure_mixed :
    (["a", "b"] : List String).Nodup ∧
      (strictEq (.object [("a", .integer 1), ("b", .null)])
          (.object [("a", .float 1.0), ("b", .null)]) = true ↔
        ∀ key, Option.Rel (fun x y => x.kind = y.kind ∧ strictEq x y = true)
          (List.lookup key [("a", .integer 1), ("b", .null)])
          (List.lookup key [("a", .float 1.0), ("b", .null)])) ∧
      looseEq (.array [.integer 1]) (.array [.float 1.0]) =
        strictEq (.array [.integer 1]) (.array [.float 1.0]) := by
  have unique : (["a", "b"] : List String).Nodup := by decide
  have keys (v w : Value) : ([("a", v), ("b", w)].map Prod.fst).Nodup := unique
  obtain ⟨-, -, -, -, objects, -, loose⟩ := strictEq_structure (.array [.integer 1])
    (.array [.float 1.0]) [] [] (keys (.integer 1) .null) (keys (.float 1.0) .null)
  exact ⟨unique, objects, loose (.inl rfl)⟩

/-- An integer is strictly equal to a float, but not where both stand in containers. -/
theorem strictEq_mixed_items :
    Operator.strictEq.apply [.integer 1, .float 1.0] = .boolean true ∧
      Operator.strictEq.apply [.array [.integer 1], .array [.float 1.0]] = .boolean false ∧
      Operator.strictEq.apply [.object [("a", .integer 1)], .object [("a", .float 1.0)]] =
        .boolean false ∧
      Operator.within.apply [.float 1.0, .array [.integer 1]] = .boolean true ∧
      Operator.within.apply [.array [.float 1.0], .array [.array [.integer 1]]] =
        .boolean false := by
  with_unfolding_all exact ⟨rfl, rfl, rfl, rfl, rfl⟩

end Value

end DocumentPath
