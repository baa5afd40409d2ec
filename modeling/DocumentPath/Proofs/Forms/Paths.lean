import Mathlib.Data.List.Forall2
import DocumentPath.Cursor
import DocumentPath.Proofs.Forms.Bodies
import DocumentPath.Proofs.Forms.Documents
import DocumentPath.Proofs.Outlines.Reading
import DocumentPath.Proofs.Traversal.Enumeration
import DocumentPath.Removal
import DocumentPath.Writing

namespace DocumentPath

open Scanner

/-- The text is a way to write a part of a path. A filter is written between brackets or as a
document, whose dots must stand in its strings or between its braces. -/
inductive Spells : List Char → Part → Prop
  | step (text : StepText) : Spells text.chars (.step text.step)
  | star : Spells ['*'] (.wildcard none)
  | brackets : Spells ['[', '*', ']'] (.wildcard none)
  | expression {body : List Char} {e : Expression} :
    Filter.ofBrackets (bracketed body) = .ok (some e) → Spells (bracketed body) (.wildcard (some e))
  | document {text : List Char} {j : Json} {e : Expression} :
    Json.read? Json.depthLimit text = some j → Expression.ofJson j = .ok e →
    j.isObject = true ∨ OpenAtDots '\x7b' '\x7d' text → Spells ('*' :: text) (.wildcard (some e))

theorem openAtDots_star {text : List Char} (h : OpenAtDots '\x7b' '\x7d' text) :
    OpenAtDots '\x7b' '\x7d' ('*' :: text) := by
  intro u v hu outside
  cases u with
  | nil => exact absurd (List.cons.inj hu).1 (by decide)
  | cons c u =>
    obtain ⟨rfl, rfl⟩ := List.cons.inj hu
    rw [excess_star]
    exact h u v rfl outside

namespace Spells

variable {text : List Char} {part : Part}

/-- Behind a piece the scanner of the path is as it was before it. -/
theorem after (h : Spells text part) : start.after text = start := by
  cases h with
  | step text => exact text.crosses.1
  | star => rfl
  | brackets => rfl
  | expression read => exact after_bracketed (Filter.crosses_of_ofBrackets read)
  | document read _ _ => exact (Json.scan_document read).1

/-- The pieces between dots that a part was cut into are read as the part. -/
theorem readParts (h : Spells text part) (path : List Char) (more : List (List Char)) :
    Outline.readParts path (splitOutside '.' text ++ more) =
      (Outline.readParts path more).map (part :: ·) := by
  cases h with
  | step text => exact text.readParts_step path more
  | star => exact WildcardText.star.readParts_wildcard path more
  | brackets => exact WildcardText.brackets.readParts_wildcard path more
  | @expression body e read =>
    have crosses := Filter.crosses_of_ofBrackets read
    refine (Outline.readParts_bracket (isBalanced_bracketed crosses)
      (fun u v hu _ => excess_bracketed crosses hu) path more).trans ?_
    rw [← bracketed, read]
    exact Outline.readParts_wildcard _ path more
  | @document text j e read meaning dots =>
    have isOpen : OpenAtDots '\x7b' '\x7d' ('*' :: text) := by
      rcases dots with object | dots
      · exact fun u v hu _ => excess_object read object hu
      · exact openAtDots_star dots
    refine (Outline.readParts_star (isBalanced_object read) isOpen path more).trans ?_
    rw [Expression.ofJsonText_of_read? read, meaning]
    exact Outline.readParts_wildcard _ path more

end Spells

/-- The root, and behind it the pieces with a dot before each. -/
def pathText (pieces : List (List Char)) : String :=
  String.ofList (if pieces = [] then ['$'] else '$' :: '.' :: ['.'].intercalate pieces)

theorem readParts_pieces {pieces : List (List Char)} {parts : List Part}
    (h : List.Forall₂ Spells pieces parts) (path : List Char) :
    Outline.readParts path (pieces.flatMap (splitOutside '.')) = .ok parts := by
  induction h with
  | nil => rw [List.flatMap_nil, Outline.readParts]
  | cons first _ ih =>
    rw [List.flatMap_cons, first.readParts, ih]
    rfl

/-- However the parts of a path are written, they are what it says. -/
theorem ofPath_pathText {pieces : List (List Char)} {parts : List Part}
    (h : List.Forall₂ Spells pieces parts) :
    Outline.ofPath (pathText pieces) = .ok (Outline.ofParts parts) := by
  rw [Outline.ofPath, pathText, String.toList_ofList]
  split_ifs with root
  · subst root
    cases h
    rfl
  · have after : ∀ piece ∈ pieces, start.after piece = start := by
      have both := (List.forall₂_and_left _ _).mp (h.imp fun _ _ hs => ⟨hs.after, hs⟩)
      exact both.1
    show (Outline.readParts _ (splitOutside '.' _)).map Outline.ofParts = _
    rw [splitOutside_intercalate root after, readParts_pieces h]
    rfl

namespace Plan

/-- Levels whose filters the standard engine made ready. -/
def standardLevels (levels : List (Option Expression × Segment)) : List Level :=
  levels.map fun (filter, continuation) => ⟨filter.map fun e => ⟨e, e.predicate⟩, continuation⟩

theorem compile_standard {path : String} {outline : Outline}
    (h : Outline.ofPath path = .ok outline) :
    compile .standard path = .ok ⟨path, outline.start, standardLevels outline.levels⟩ := by
  have ready (levels : List (Option Expression × Segment)) :
      levels.mapM (levelOf .standard) = .ok (standardLevels levels) := by
    induction levels with
    | nil => rfl
    | cons level levels ih =>
      have first :
          levelOf .standard level = .ok ⟨level.1.map fun e => ⟨e, e.predicate⟩, level.2⟩ := by
        obtain ⟨filter, continuation⟩ := level
        cases filter <;> rfl
      rw [List.mapM_cons, first, ih]
      rfl
  rw [compile, h]
  simp only [bind, Except.bind, ready]
  rfl

/-- What a plan does depends on its path in its error texts only. -/
structure Agree (plan plan' : Plan) : Prop where
  run : ∀ data context, plan'.run data context = plan.run data context
  matches' : ∀ data context, plan'.allMatches data context = plan.allMatches data context
  take : ∀ data context limit,
    (plan'.cursor data).take context limit = (plan.cursor data).take context limit
  remove : ∀ data context, (plan'.remove data context).2 = (plan.remove data context).2 ∧
    (plan'.remove data context).1.toOption = (plan.remove data context).1.toOption
  write : ∀ (σ : Type) (mutator : Mutator σ) (state : σ) (data context : Value),
    plan'.write mutator state data context = plan.write mutator state data context

theorem agree_of_path (plan : Plan) (path : String) : Agree plan { plan with path := path } where
  run := fun _ _ => rfl
  matches' := fun _ _ => rfl
  take := fun _ _ _ => rfl
  remove := by
    intro data context
    unfold Plan.remove
    cases plan.levels.getLast? with
    | none => exact ⟨rfl, rfl⟩
    | some last =>
      by_cases target : last.continuation = []
      · simp [target]
      · simp [target, Except.toOption]
  write := fun _ _ _ _ _ => rfl

/-- Between operators and as a document an expression is written alike: the document is read as the
expression, and paths with the same parts, whose filters are written in either form, make plans that
agree. -/
theorem filter_forms_agree :
    (∀ e : Expression, e.HasDocument → Expression.ofJson e.toJson = .ok e) ∧
    (∀ (text : String) (e : Expression), Expression.parse text = .ok e →
      (∀ v, .literal v ∈ e.leaves → v.isFinite = true) →
      e.HasDocument ∧ Expression.ofJson e.toJson = .ok e) ∧
    ∀ (parts : List Part) (pieces pieces' : List (List Char)),
      List.Forall₂ Spells pieces parts → List.Forall₂ Spells pieces' parts →
      ∃ plan plan', compile .standard (pathText pieces) = .ok plan ∧
        compile .standard (pathText pieces') = .ok plan' ∧ Agree plan plan' := by
  refine ⟨fun e h => Expression.ofJson_toJson h, fun text e parsed finite => ?_, ?_⟩
  · have document := Expression.hasDocument_of_parse parsed finite
    exact ⟨document, Expression.ofJson_toJson document⟩
  · intro parts pieces pieces' h h'
    exact ⟨_, _, compile_standard (ofPath_pathText h), compile_standard (ofPath_pathText h'),
      agree_of_path _ _⟩

theorem filter_forms_agree_between :
    ∃ e, Expression.parse "!(@.a<2,3)" = .ok e ∧ Expression.ofJson e.toJson = .ok e ∧
      ∃ plan plan', compile .standard "$.x.[?(!(@.a<2,3))]" = .ok plan ∧
        compile .standard "$.x.*\x7b\"!\":[\x7b\"<\":[\x7b\"var\":\"a\"\x7d,2,3]\x7d]\x7d" = .ok plan' ∧
        Agree plan plan' := by
  obtain ⟨_, texts, paths⟩ := filter_forms_agree
  let e : Expression := .call .not [.call .lt [.element "a", .literal (.integer 2),
    .literal (.integer 3)]]
  have parsed : Expression.parse "!(@.a<2,3)" = .ok e := by with_unfolding_all rfl
  have finite : ∀ v, .literal v ∈ e.leaves → v.isFinite = true := by
    intro v hv
    have number : v = .integer 2 ∨ v = .integer 3 := by
      simpa [e, Expression.leaves, Expression.operandLeaves] using hv
    rcases number with rfl | rfl <;> rfl
  have read := (texts _ e parsed finite).2
  have body : Filter.ofBrackets (bracketed "!(@.a<2,3)".toList) = .ok (some e) := by
    with_unfolding_all rfl
  have document : Json.read? Json.depthLimit
      "\x7b\"!\":[\x7b\"<\":[\x7b\"var\":\"a\"\x7d,2,3]\x7d]\x7d".toList = some e.toJson := by
    with_unfolding_all rfl
  have key : Spells ['x'] (.step ⟨"x", false⟩) :=
    .step (.bare ⟨['x'], by decide, by simp, by decide⟩)
  have agree := paths _ _ _ (.cons key (.cons (.expression body) .nil))
    (.cons key (.cons (.document document read (.inl rfl)) .nil))
  have brackets : pathText [['x'], bracketed "!(@.a<2,3)".toList] = "$.x.[?(!(@.a<2,3))]" := by
    with_unfolding_all rfl
  have braces : pathText [['x'], '*' ::
      "\x7b\"!\":[\x7b\"<\":[\x7b\"var\":\"a\"\x7d,2,3]\x7d]\x7d".toList] =
      "$.x.*\x7b\"!\":[\x7b\"<\":[\x7b\"var\":\"a\"\x7d,2,3]\x7d]\x7d" := by
    with_unfolding_all rfl
  rw [brackets, braces] at agree
  exact ⟨e, parsed, read, agree⟩

/-- A number with a point is no filter that follows a wildcard: the path is parted at the point. -/
theorem filter_forms_differ_at_dot :
    let e : Expression := .literal (.float 1.5)
    let data : Value := .array [.object [("5", .integer 7)]]
    Expression.parse "1.5" = .ok e ∧ Json.read? Json.depthLimit "1.5".toList = some e.toJson ∧
      Expression.ofJson e.toJson = .ok e ∧
      ∃ plan plan', compile .standard "$.[?(1.5)]" = .ok plan ∧
        compile .standard "$.*1.5" = .ok plan' ∧
        plan.run data .null = data ∧ plan'.run data .null = .array [.integer 7] := by
  intro e data
  have read : Expression.ofJson e.toJson = .ok e := by
    have finite : (Value.float 1.5).isFinite = true := by with_unfolding_all rfl
    exact Expression.ofJson_literal ⟨rfl, finite⟩
  have parted : Outline.ofPath "$.*1.5" =
      .ok ⟨[], [(some (.literal (.integer 1)), [⟨"5", true⟩])]⟩ := by
    have one : Expression.ofJson (.integer 1) = .ok (.literal (.integer 1)) := by
      rw [Expression.ofJson] <;> simp
      rfl
    have number : Spells ['*', '1'] (.wildcard (some (.literal (.integer 1)))) :=
      .document (j := .integer 1) (by with_unfolding_all rfl) one
        (.inr (openAtDots_of_no_dot _ _ (by decide)))
    have key : Spells ['5'] (.step ⟨"5", true⟩) :=
      .step (.bare ⟨['5'], by decide, by simp, by decide⟩)
    exact ofPath_pathText (.cons number (.cons key .nil))
  have whole : Outline.ofPath "$.[?(1.5)]" = .ok ⟨[], [(some e, [])]⟩ := by with_unfolding_all rfl
  refine ⟨by with_unfolding_all rfl, by with_unfolding_all rfl, read, _, _,
    compile_standard whole, compile_standard parted, ?_, ?_⟩
  · rw [run, allMatches_eq_meaning]
    with_unfolding_all rfl
  · rw [run, allMatches_eq_meaning]
    with_unfolding_all rfl

end Plan

end DocumentPath
