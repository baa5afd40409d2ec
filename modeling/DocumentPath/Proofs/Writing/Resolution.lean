import DocumentPath.Proofs.Positions.Shape
import DocumentPath.Proofs.Traversal.Concrete
import DocumentPath.Proofs.Writing.Fusion

namespace DocumentPath

namespace Value

/-- The number of items of an array or of characters of a string, as an integer of the document. -/
inductive Counts : Value → Value → Prop
  | items (items : List Value) : Counts (.array items) (.integer (Int64.ofNat items.length))
  | characters (s : String) : Counts (.string s) (.integer (Int64.ofNat s.length))

theorem counts_iff {v w : Value} : Counts v w ↔ ∃ n, v.length? = some n ∧ w = .integer n := by
  constructor
  · intro h
    cases h with
    | items items => exact ⟨_, rfl, rfl⟩
    | characters s => exact ⟨_, rfl, rfl⟩
  · rintro ⟨n, hn, rfl⟩
    cases v with
    | array items =>
      cases hn
      exact .items items
    | string s =>
      cases hn
      exact .characters s
    | _ => cases hn

theorem get?_length_of_counts {v w : Value} (h : Counts v w) : v.get? "length" = none := by
  cases h with
  | items items =>
    have word : Text.readIndex? "length".toList = none := by rfl
    rw [get?, word]
    rfl
  | characters s => rfl

theorem find?_eq_slot_iff {v w : Value} {key : String} :
    v.find? key = some (.slot w) ↔ v.get? key = some w := by
  rw [find?]
  cases v.get? key with
  | some u => simp
  | none =>
    split_ifs
    · cases v.length? <;> simp
    · simp

/-- A value is worked out only for the key `length`, where no slot has that key. -/
theorem find?_eq_computed_iff {v w : Value} {key : String} :
    v.find? key = some (.computed w) ↔ key = "length" ∧ Counts v w := by
  rw [counts_iff]
  constructor
  · intro h
    rw [find?] at h
    split at h
    · cases h
    · split_ifs at h with word
      obtain ⟨n, hn, he⟩ := Option.map_eq_some_iff.mp h
      cases he
      exact ⟨word, n, hn, rfl⟩
  · rintro ⟨rfl, n, hn, rfl⟩
    have no_slot : v.get? "length" = none := get?_length_of_counts (counts_iff.mpr ⟨n, hn, rfl⟩)
    simp [find?, no_slot, hn]

/-- No key leads on from a number of items or characters. -/
theorem Counts.find?_eq_none {v w : Value} (h : Counts v w) (key : String) :
    w.find? key = none := by
  obtain ⟨n, _, rfl⟩ := counts_iff.mp h
  simp [find?, get?, length?]

/-- What is put at another child leaves the one that a key names where it was. -/
theorem locate?_setChild_ne {v w : Value} {key : String} {b c : Branch}
    (h : v.locate? key = some (b, w)) (other : b ≠ c) (new : Value) :
    (v.setChild c new).locate? key = some (b, w) := by
  cases v with
  | object members =>
    obtain ⟨u, hu, he⟩ := Option.map_eq_some_iff.mp h
    cases he
    cases c with
    | item i => simpa [setChild, locate?] using hu
    | member k =>
      have ne : key ≠ k := fun same => other (by rw [same])
      simp [setChild, locate?, Members.lookup_set_ne ne, hu]
  | array items =>
    obtain ⟨i, hi, h⟩ := Option.bind_eq_some_iff.mp h
    obtain ⟨u, hu, he⟩ := Option.map_eq_some_iff.mp h
    cases he
    cases c with
    | member k => simp [setChild, locate?, hi, hu]
    | item j =>
      have ne : j ≠ i := fun same => other (by rw [same])
      simp [setChild, locate?, hi, List.getElem?_set_ne ne, hu]
  | _ => cases h

end Value

namespace Position

/-- What is put inside a value never becomes the value itself. -/
theorem exists_setAt_ne (b : Branch) (p : Position) (v : Value) :
    ∃ new, setAt (b :: p) new v ≠ new := by
  by_cases same : setAt (b :: p) .null v = .null
  · -- only `null` becomes `null`, and it stays so whatever is put into it
    have shape := keepsShape_setAt b p .null v
    rw [same] at shape
    refine ⟨.boolean true, fun h => ?_⟩
    have shape' := keepsShape_setAt b p (.boolean true) v
    rw [h] at shape'
    cases v <;> simp [Value.KeepsShape] at shape shape'
  · exact ⟨.null, same⟩

end Position

namespace Segment

/-- Reading steps comes to what stands at the position, whatever is put there. -/
def Tracks (segment : Segment) (v : Value) (p : Position) : Prop :=
  ∀ new, find? segment (Position.setAt p new v) = some (.slot new)

variable {segment : Segment} {v w : Value} {p q : Position}

theorem tracks_iff :
    Tracks segment v p ↔ ∀ new, get? segment (Position.setAt p new v) = some new := by
  simp only [Tracks, find?_eq_slot_iff]

theorem exists_position?_of_get? (h : get? segment v = some w) :
    ∃ p, position? segment v = some p ∧ Position.at? p v = some w := by
  rw [get?_eq_position?] at h
  exact Option.bind_eq_some_iff.mp h

theorem tracks_of_position? (h : position? segment v = some p) (hw : get? segment v = some w) :
    Tracks segment v p := by
  rw [tracks_iff]
  intro new
  rw [← put_of_position? h]
  exact get?_put hw new

/-- A write apart from the position that steps lead to does not move it. -/
theorem position?_setAt_of_apart (h : position? segment v = some p) (apart : Position.Apart q p)
    (new : Value) : position? segment (Position.setAt q new v) = some p := by
  induction segment generalizing v p q with
  | nil =>
    cases h
    exact absurd apart.symm Position.not_apart_nil
  | cons step steps ih =>
    obtain ⟨⟨b, w⟩, hl, h⟩ := Option.bind_eq_some_iff.mp h
    obtain ⟨r, hr, rfl⟩ := Option.map_eq_some_iff.mp h
    cases q with
    | nil => exact absurd apart Position.not_apart_nil
    | cons c q =>
      by_cases same : b = c
      · subst same
        have inner : Position.Apart q r := (Position.apart_cons_cons.mp apart).resolve_left (by simp)
        rw [Position.setAt_cons_of_child? (Value.child?_of_locate? hl),
          position?_cons (Value.locate?_setChild hl _), ih hr inner]
        rfl
      · have kept (u : Value) : position? (step :: steps) (v.setChild c u) = some (b :: r) := by
          have rest : (position? steps w).map (b :: ·) = some (b :: r) := by rw [hr]; rfl
          rw [position?_cons (Value.locate?_setChild_ne hl same u)]
          exact rest
        rw [Position.setAt]
        split
        · exact kept _
        · split_ifs
          · exact kept _
          · rw [position?_cons hl, hr]
            rfl

/-- Once `null` stands on the way, steps lead nowhere. -/
theorem get?_setAt_of_above (h : position? segment v = some (q ++ p)) (below : p ≠ []) :
    get? segment (Position.setAt q .null v) = none := by
  induction q generalizing segment v with
  | nil =>
    cases segment with
    | nil =>
      cases h
      exact absurd rfl below
    | cons step steps => rfl
  | cons b q ih =>
    cases segment with
    | nil => cases h
    | cons step steps =>
      obtain ⟨⟨c, w⟩, hl, h⟩ := Option.bind_eq_some_iff.mp h
      obtain ⟨r, hr, he⟩ := Option.map_eq_some_iff.mp h
      obtain ⟨rfl, rfl⟩ := List.cons.inj he
      rw [Position.setAt_cons_of_child? (Value.child?_of_locate? hl), get?,
        Value.get?_of_locate? (Value.locate?_setChild hl _), Option.bind_some]
      exact ih hr

/-- No position but the one that steps lead to is read through them. -/
theorem eq_of_tracks (h : position? segment v = some p) (hw : Position.at? p v = some w)
    (tracks : Tracks segment v q) : q = p := by
  rw [tracks_iff] at tracks
  by_cases below : p <+: q
  · obtain ⟨r, rfl⟩ := below
    cases r with
    | nil => exact List.append_nil p
    | cons b r =>
      obtain ⟨new, ne⟩ := Position.exists_setAt_ne b r w
      have read : get? segment (Position.setAt (p ++ b :: r) new v) =
          some (Position.setAt (b :: r) new w) := by
        have there : get? segment v = some w := by rw [get?_eq_position?, h]; exact hw
        rw [Position.setAt_append hw, ← put_of_position? h]
        exact get?_put there _
      rw [tracks new] at read
      exact absurd (Option.some.inj read).symm ne
  by_cases above : q <+: p
  · obtain ⟨r, rfl⟩ := above
    have ne : r ≠ [] := by
      intro empty
      apply below
      exact ⟨[], by rw [empty, List.append_nil, List.append_nil]⟩
    have read := tracks .null
    rw [get?_setAt_of_above h ne] at read
    cases read
  · have apart : Position.Apart q p := ⟨above, below⟩
    have kept (new : Value) : get? segment (Position.setAt q new v) = some w := by
      rw [get?_eq_position?, position?_setAt_of_apart h apart, Option.bind_some,
        Position.at?_setAt_of_apart apart, hw]
    have null := (tracks .null).symm.trans (kept .null)
    have boolean := (tracks (.boolean true)).symm.trans (kept (.boolean true))
    rw [← boolean] at null
    cases null

/-- A value is worked out only at the last of the steps. -/
theorem find?_eq_computed_iff : find? segment v = some (.computed w) ↔
    ∃ front last container, segment = front ++ [last] ∧ get? front v = some container ∧
      container.find? last.key = some (.computed w) := by
  induction segment generalizing v with
  | nil =>
    constructor
    · intro h
      cases h
    · rintro ⟨front, last, container, he, _⟩
      simp at he
  | cons step steps ih =>
    constructor
    · intro h
      rw [find?] at h
      split at h
      · cases h
      · next u hu =>
        obtain ⟨front, last, container, rfl, hget, found⟩ := ih.mp h
        refine ⟨step :: front, last, container, rfl, ?_, found⟩
        rw [get?, Value.find?_eq_slot_iff.mp hu]
        exact hget
      · next u hu =>
        cases steps with
        | nil =>
          cases h
          exact ⟨[], step, v, rfl, rfl, hu⟩
        | cons next steps =>
          have counts := (Value.find?_eq_computed_iff.mp hu).2
          rw [find?, counts.find?_eq_none] at h
          cases h
    · rintro ⟨front, last, container, he, hget, found⟩
      rw [he, find?_append hget, find?, found]
      rfl

/-- An array that steps lead to is one of the document, never a value that was worked out. -/
theorem found_array_iff {items : List Value} :
    (∃ found, find? segment v = some found ∧ found.value = .array items) ↔
      array? segment v = some items := by
  rw [array?]
  constructor
  · rintro ⟨found, hf, value⟩
    rw [hf]
    cases found with
    | slot w => exact Value.items?_eq_some_iff.mpr value
    | computed w =>
      obtain ⟨front, last, container, rfl, _, found⟩ := find?_eq_computed_iff.mp hf
      obtain ⟨n, _, number⟩ := Value.counts_iff.mp (Value.find?_eq_computed_iff.mp found).2
      rw [number] at value
      cases value
  · intro h
    split at h
    · next w hw => exact ⟨.slot w, hw, Value.items?_eq_some_iff.mp h⟩
    · cases h

/-- Reading and writing come to the same slot, with the same content, or neither comes to one. The
slot is at one position: what is put through the steps goes there, and what is put there, and at no
other position, is what they read. Reading comes to a value without a slot only where `length` is
the last step and the ones before it lead to an array or a string, whose items or characters it
counts. So no array is missed where only slots are looked at. -/
theorem find?_agrees_with_put (segment : Segment) (v : Value) :
    (∀ w, get? segment v = some w ↔ find? segment v = some (.slot w)) ∧
    (∀ w, find? segment v = some (.slot w) → ∃ p, Position.at? p v = some w ∧
      (∀ new, put segment new v = Position.setAt p new v) ∧
      ∀ q, (∀ new, find? segment (Position.setAt q new v) = some (.slot new)) ↔ q = p) ∧
    (∀ w, find? segment v = some (.computed w) ↔
      ∃ front last container, segment = front ++ [last] ∧ last.key = "length" ∧
        get? front v = some container ∧
        ((∃ items, container = .array items ∧ w = .integer (Int64.ofNat items.length)) ∨
          ∃ s, container = .string s ∧ w = .integer (Int64.ofNat s.length))) ∧
    (∀ items, (∃ found, find? segment v = some found ∧ found.value = .array items) ↔
      array? segment v = some items) ∧
    array? segment v = items? segment v := by
  refine ⟨fun w => find?_eq_slot_iff.symm, ?_, ?_, fun items => found_array_iff,
    array?_eq_items? segment v⟩
  · intro w hw
    have there : get? segment v = some w := find?_eq_slot_iff.mp hw
    obtain ⟨p, hp, hat⟩ := exists_position?_of_get? there
    refine ⟨p, hat, fun new => put_of_position? hp new, fun q => ?_⟩
    constructor
    · exact eq_of_tracks hp hat
    · rintro rfl
      exact tracks_of_position? hp there
  · intro w
    simp only [find?_eq_computed_iff, Value.find?_eq_computed_iff]
    constructor
    · rintro ⟨front, last, container, rfl, hget, word, counts⟩
      refine ⟨front, last, container, rfl, word, hget, ?_⟩
      cases counts with
      | items items => exact .inl ⟨items, rfl, rfl⟩
      | characters s => exact .inr ⟨s, rfl, rfl⟩
    · rintro ⟨front, last, container, rfl, word, hget, counted⟩
      refine ⟨front, last, container, rfl, hget, word, ?_⟩
      rcases counted with ⟨items, rfl, rfl⟩ | ⟨s, rfl, rfl⟩
      · exact .items items
      · exact .characters s

theorem find?_agrees_with_put_length :
    let v : Value := .object [("a", .array [.null, .object [("length", .boolean true)]])]
    let steps (keys : List String) : Segment := keys.map fun key => ⟨key, false⟩
    find? (steps ["a", "1", "length"]) v = some (.slot (.boolean true)) ∧
      put (steps ["a", "1", "length"]) .null v =
        .object [("a", .array [.null, .object [("length", .null)]])] ∧
      find? (steps ["a", "length"]) v = some (.computed (.integer 2)) ∧
      array? (steps ["a"]) v = some [.null, .object [("length", .boolean true)]] := by
  intro v steps
  obtain ⟨slot, place, -, -, -⟩ := find?_agrees_with_put (steps ["a", "1", "length"]) v
  obtain ⟨-, -, count, -, -⟩ := find?_agrees_with_put (steps ["a", "length"]) v
  obtain ⟨-, -, -, array, -⟩ := find?_agrees_with_put (steps ["a"]) v
  have member : find? (steps ["a", "1", "length"]) v = some (.slot (.boolean true)) :=
    (slot _).mp (by with_unfolding_all rfl)
  obtain ⟨p, -, written, only⟩ := place _ member
  have tracked : [.member "a", .item 1, .member "length"] = p :=
    (only _).mp fun new => by with_unfolding_all rfl
  refine ⟨member, ?_, ?_, ?_⟩
  · rw [written, ← tracked]
    rfl
  · exact (count _).mpr ⟨steps ["a"], ⟨"length", false⟩, _, rfl, rfl, rfl, .inl ⟨_, rfl, rfl⟩⟩
  · exact (array _).mp ⟨_, rfl, rfl⟩

end Segment

end DocumentPath
