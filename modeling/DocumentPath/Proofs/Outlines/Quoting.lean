import DocumentPath.Proofs.Outlines.Reading
import DocumentPath.Traversal

namespace DocumentPath

open Scanner

/-- A key as it is written between quotes: a backslash stands before each quote and each backslash
of it. -/
def escaped (key : List Char) : List Char :=
  key.flatMap fun c => if c = '"' ∨ c = '\\' then ['\\', c] else [c]

/-- A key with quotes around it. -/
def quotedKey (key : String) : List Char := '"' :: (escaped key.toList ++ ['"'])

/-- The root, and behind it a dot and a quoted key for each key. -/
def quotedPath (keys : List String) : String :=
  String.ofList ('$' :: keys.flatMap fun key => '.' :: quotedKey key)

/-- The step that a quoted key is read as: the text between the quotes as it stands. -/
def quotedStep (key : String) : Step := ⟨String.ofList (escaped key.toList), true⟩

/-- What keys lead to, one after the other; `null` where one of them is missing. -/
def Value.follow : List String → Value → Value
  | [], v => v
  | key :: keys, v =>
    match v.find? key with
    | some found => follow keys found.value
    | none => .null

theorem escaped_cons (c : Char) (cs : List Char) :
    escaped (c :: cs) = (if c = '"' ∨ c = '\\' then ['\\', c] else [c]) ++ escaped cs :=
  List.flatMap_cons

theorem length_le_escaped (key : List Char) : key.length ≤ (escaped key).length := by
  induction key with
  | nil => exact Nat.le_refl 0
  | cons c cs ih =>
    rw [escaped_cons]
    split <;> simp only [List.length_append, List.length_cons, List.length_nil] <;> omega

/-- Only a key with nothing to escape is written as it is. -/
theorem escaped_eq_self_iff {key : List Char} : escaped key = key ↔ '"' ∉ key ∧ '\\' ∉ key := by
  induction key with
  | nil => simp [escaped]
  | cons c cs ih =>
    rw [escaped_cons]
    split
    case isTrue special =>
      constructor
      · intro same
        have lengths := congrArg List.length same
        have := length_le_escaped cs
        simp only [List.length_append, List.length_cons, List.length_nil] at lengths
        omega
      · rintro ⟨quote, slash⟩
        rcases special with rfl | rfl
        · exact absurd (List.mem_cons_self ..) quote
        · exact absurd (List.mem_cons_self ..) slash
    case isFalse plain =>
      obtain ⟨quote, slash⟩ := not_or.mp plain
      rw [List.singleton_append, List.cons_inj_right, ih]
      simp [Ne.symm quote, Ne.symm slash]

theorem ofList_escaped_eq_iff {key : String} :
    String.ofList (escaped key.toList) = key ↔ '"' ∉ key.toList ∧ '\\' ∉ key.toList := by
  rw [← escaped_eq_self_iff, ← String.toList_inj, String.toList_ofList]

/-- A quoted key is a quotation of the kind that filters have, so it is read over in the same way. -/
theorem crosses_quotedKey (key : String) : Crosses (· ≠ '.') 0 0 (quotedKey key) := by
  let quotation : Infix.Quotation :=
    ⟨'"', key.toList.map fun c => (decide (c = '"' ∨ c = '\\'), c), rfl, by
      intro c hc
      obtain ⟨d, _, he⟩ := List.mem_map.mp hc
      obtain ⟨plain, rfl⟩ := Prod.mk.inj he
      exact not_or.mp (of_decide_eq_false plain)⟩
  have same : quotation.chars = quotedKey key := by
    simp [quotation, Infix.Quotation.chars, Infix.Quotation.inner, quotedKey, escaped,
      List.flatMap_map]
  rw [← same]
  exact Infix.crosses_quotation _ quotation (.inl rfl)

theorem splitOutside_quotedKey (key : String) : splitOutside '.' (quotedKey key) = [quotedKey key] :=
  splitOutside_of_no_dot (crosses_quotedKey key).2

theorem ofText_quotedKey (key : String) : Step.ofText (quotedKey key) = quotedStep key := by
  rw [quotedKey, Step.ofText, Step.unquoted?_quoted, quotedStep]

theorem splitOutside_quotedKeys {keys : List String} (h : keys ≠ []) :
    splitOutside '.' (['.'].intercalate (keys.map quotedKey)) = keys.map quotedKey := by
  have after : ∀ piece ∈ keys.map quotedKey, start.after piece = start := by
    intro piece hpiece
    obtain ⟨key, _, rfl⟩ := List.mem_map.mp hpiece
    exact (crosses_quotedKey key).1
  rw [splitOutside_intercalate (List.map_eq_nil_iff.not.mpr h) after, List.flatMap_map,
    List.map_eq_flatMap]
  exact congrArg (keys.flatMap ·) (funext splitOutside_quotedKey)

theorem flatMap_dot_cons {α : Type} (f : α → List Char) (x : α) (xs : List α) :
    ((x :: xs).flatMap fun y => '.' :: f y) = '.' :: ['.'].intercalate ((x :: xs).map f) := by
  induction xs generalizing x with
  | nil => simp
  | cons y ys ih =>
    rw [List.flatMap_cons, ih y, List.map_cons, List.map_cons, List.map_cons,
      List.intercalate_cons_cons, List.cons_append, List.append_assoc]
    rfl

namespace Outline

theorem readParts_quotedKeys (keys : List String) (path : List Char) :
    readParts path (keys.map quotedKey) = .ok (keys.map fun key => .step (quotedStep key)) := by
  induction keys with
  | nil => rw [List.map_nil, readParts, List.map_nil]
  | cons key keys ih =>
    rw [List.map_cons, quotedKey, readParts_step (by decide) (by decide), ih, ← quotedKey,
      ofText_quotedKey]
    rfl

theorem ofParts_quotedSteps (steps : List Step) : ofParts (steps.map .step) = ⟨steps, []⟩ := by
  induction steps with
  | nil => rfl
  | cons step steps ih =>
    have first : ofParts ((step :: steps).map .step) = cons (.step step) (ofParts (steps.map .step)) :=
      rfl
    rw [first, ih]
    rfl

/-- Keys in quotes are read as steps, one for each key. -/
theorem ofPath_steps (keys : List String) :
    ofPath (quotedPath keys) = .ok ⟨keys.map quotedStep, []⟩ := by
  cases keys with
  | nil => rfl
  | cons key keys =>
    rw [ofPath, quotedPath, String.toList_ofList, flatMap_dot_cons]
    show (readParts _ (splitOutside '.' _)).map ofParts = _
    rw [splitOutside_quotedKeys (List.cons_ne_nil _ _), readParts_quotedKeys]
    have parts : (key :: keys).map (fun key => Part.step (quotedStep key)) =
        ((key :: keys).map quotedStep).map .step := List.map_map.symm
    rw [parts]
    exact congrArg Except.ok (ofParts_quotedSteps _)

end Outline

theorem Segment.valueAt_eq_follow (segment : Segment) (v : Value) :
    segment.valueAt v = v.follow (List.map Step.key segment) := by
  induction segment generalizing v with
  | nil => rfl
  | cons step steps ih =>
    rw [Segment.valueAt, Segment.find?, List.map_cons, Value.follow]
    cases h : v.find? step.key with
    | none => rfl
    | some found =>
      cases found with
      | slot w => exact ih w
      | computed w =>
        refine Eq.trans ?_ (ih w)
        rw [Segment.valueAt, Option.map_map]
        rfl

namespace Plan

/-- A path of keys in quotes is always read, as steps only. Their keys are the texts between the
quotes, with the backslashes that were written: they are the keys that were meant just where none of
them has a quote or a backslash. What the path leads to is what the texts between the quotes lead
to. -/
theorem compile_quotedPath (keys : List String) :
    ∃ steps, Outline.ofPath (quotedPath keys) = .ok ⟨steps, []⟩ ∧
      steps = keys.map quotedStep ∧
      (steps.map Step.key = keys ↔ ∀ key ∈ keys, '"' ∉ key.toList ∧ '\\' ∉ key.toList) ∧
      ∀ engine, ∃ plan, compile engine (quotedPath keys) = .ok plan ∧ plan.isIterating = false ∧
        ∀ data context, plan.run data context = data.follow (steps.map Step.key) := by
  refine ⟨_, Outline.ofPath_steps keys, rfl, ?_, fun engine => ⟨⟨quotedPath keys, keys.map quotedStep,
    []⟩, ?_, rfl, fun data context => ?_⟩⟩
  · have each : (keys.map quotedStep).map Step.key = keys ↔
        ∀ key ∈ keys, String.ofList (escaped key.toList) = key := by
      rw [List.map_map]
      nth_rewrite 2 [← List.map_id keys]
      exact List.map_inj_left
    rw [each]
    exact forall₂_congr fun key _ => ofList_escaped_eq_iff
  · rw [compile, Outline.ofPath_steps]
    rfl
  · exact Segment.valueAt_eq_follow _ data

/-- A quote in a key cannot be written: its backslash stays in the key that is looked for. -/
theorem run_quotedPath_quote :
    quotedPath ["a\"b"] = "$.\"a\\\"b\"" ∧
    Outline.ofPath (quotedPath ["a\"b"]) = .ok ⟨[⟨"a\\\"b", true⟩], []⟩ ∧
    "a\\\"b" ≠ "a\"b" ∧
    ∃ plan, compile .standard (quotedPath ["a\"b"]) = .ok plan ∧
      plan.run (.object [("a\"b", .integer 1)]) .null = .null ∧
      (Value.object [("a\"b", .integer 1)]).follow ["a\"b"] = .integer 1 := by
  refine ⟨rfl, ?_, by decide, ⟨"$.\"a\\\"b\"", [⟨"a\\\"b", true⟩], []⟩, ?_, ?_, ?_⟩ <;>
    with_unfolding_all rfl

end Plan

end DocumentPath
