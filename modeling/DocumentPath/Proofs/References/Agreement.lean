import Mathlib.Data.Bool.AllAny
import DocumentPath.Filter.Object
import DocumentPath.Proofs.References.Keys
import DocumentPath.Traversal

namespace DocumentPath

namespace Outline

/-- Without wildcards every piece is a step, and none is empty. -/
theorem start_of_readParts {path : List Char} {pieces : List (List Char)} {parts : List Part}
    (h : readParts path pieces = .ok parts) (flat : (ofParts parts).levels = []) :
    (ofParts parts).start = pieces.map Step.ofText ∧ [] ∉ pieces := by
  fun_induction readParts path pieces generalizing parts with
  | case1 =>
    cases h
    exact ⟨rfl, List.not_mem_nil⟩
  | case2 => cases h
  | case3 => cases h
  | case4 =>
    obtain ⟨filter, _, h⟩ := exists_of_bind_ok h
    obtain ⟨rest, _, h⟩ := exists_of_bind_ok h
    cases h
    cases flat
  | case5 => cases h
  | case6 =>
    obtain ⟨filter, _, h⟩ := exists_of_bind_ok h
    obtain ⟨rest, _, h⟩ := exists_of_bind_ok h
    cases h
    cases flat
  | case7 c cs pieces _ _ ih =>
    obtain ⟨rest, hrest, h⟩ := exists_of_bind_ok h
    cases h
    obtain ⟨start, nonempty⟩ := ih hrest flat
    refine ⟨congrArg (Step.ofText (c :: cs) :: ·) start, ?_⟩
    rw [List.mem_cons, not_or]
    exact ⟨(List.cons_ne_nil c cs).symm, nonempty⟩

/-- A path without wildcards is read as the steps of its dotted text. -/
theorem start_of_ofPath {p : String} {outline : Outline} (h : ofPath ("$." ++ p) = .ok outline)
    (flat : outline.levels = []) : outline.start = Segment.ofDotted p := by
  have chars : ("$." ++ p).toList = '$' :: '.' :: p.toList := by simp
  rw [ofPath, chars] at h
  obtain ⟨parts, read, rfl⟩ := exists_of_map_ok h
  obtain ⟨start, nonempty⟩ := start_of_readParts read flat
  have nonblank : p ≠ "" := by
    rintro rfl
    exact nonempty (List.mem_singleton_self [])
  rw [Segment.ofDotted, if_neg nonblank, start]

end Outline

namespace Plan

/-- A plan without wildcards is its path and the steps that are read from it. -/
theorem eq_of_compile {engine : Engine} {path : String} {plan : Plan}
    (h : compile engine path = .ok plan) (flat : plan.isIterating = false) :
    ∃ outline, Outline.ofPath path = .ok outline ∧ outline.levels = [] ∧
      plan = ⟨path, outline.start, []⟩ := by
  obtain ⟨outline, read, h⟩ := exists_of_bind_ok h
  obtain ⟨levels, built, h⟩ := exists_of_bind_ok h
  cases h
  cases hl : outline.levels with
  | nil =>
    rw [hl, List.mapM_nil] at built
    cases built
    exact ⟨outline, read, hl, rfl⟩
  | cons level rest =>
    rw [hl, List.mapM_cons] at built
    obtain ⟨_, _, built⟩ := exists_of_bind_ok built
    obtain ⟨_, _, built⟩ := exists_of_bind_ok built
    cases built
    cases flat

theorem start_of_compile {engine : Engine} {p : String} {plan : Plan}
    (h : compile engine ("$." ++ p) = .ok plan) (flat : plan.isIterating = false) :
    plan.start = Segment.ofDotted p := by
  obtain ⟨outline, read, none, rfl⟩ := eq_of_compile h flat
  exact Outline.start_of_ofPath read none

end Plan

namespace Expression

open DocumentPath.Filter

/-- The path that is read where another is written behind a root: its blanks and parentheses are
gone, and so are its numbers with signs, which have placeholders instead. -/
def Reduces (root : Char) (p q : List Char) : Prop :=
  ∃ normal table, liftNumbers [] none (root :: '.' :: p.filter isInk) = .ok (normal, table) ∧
    bare normal = root :: '.' :: q

theorem reduces_of_unsigned {root : Char} {p : List Char} (hr : root = '@' ∨ root = '$')
    (unsigned : '-' ∉ p) : Reduces root p (bare (p.filter isInk)) := by
  have whole : '-' ∉ root :: '.' :: p.filter isInk := by
    simp only [List.mem_cons, not_or]
    refine ⟨?_, by decide, fun hmem => unsigned (List.mem_filter.mp hmem).1⟩
    rcases hr with rfl | rfl <;> decide
  refine ⟨_, [], liftNumbers_of_unsigned whole [] none, ?_⟩
  rw [bare_cons _ _, bare_cons (by decide) (by decide)]
  · rcases hr with rfl | rfl <;> decide
  · rcases hr with rfl | rfl <;> decide

theorem Reduces.functional {root : Char} {p q q' : List Char} (h : Reduces root p q)
    (h' : Reduces root p q') : q = q' := by
  obtain ⟨normal, table, lifted, same⟩ := h
  obtain ⟨normal', table', lifted', same'⟩ := h'
  cases lifted.symm.trans lifted'
  exact (List.cons.inj (List.cons.inj (same.symm.trans same')).2).2

/-- What is read behind a root, when it is no call, is a reference with the reduced path. -/
theorem eq_reference_of_parse {root : Char} {p : String} {e : Expression}
    (hr : root = '@' ∨ root = '$') (unquoted : ∀ c ∈ p.toList, isQuote c = false)
    (h : parse (String.ofList (root :: '.' :: p.toList)) = .ok e) (call : e.isCall = false) :
    ∃ q : String, e = reference root q ∧ Reduces root p.toList q.toList := by
  obtain ⟨s⟩ := parse_eq_ok_iff.mp h
  rw [String.toList_ofList] at s
  have clean : Text.isBlank root = false ∧ isQuote root = false ∧ root ≠ '-' ∧ root ≠ '(' ∧
      root ≠ ')' := by
    rcases hr with rfl | rfl <;> decide
  obtain ⟨blank, quote, minus, opening, closing⟩ := clean
  have extracted : s.extraction = ⟨root :: '.' :: p.toList, []⟩ :=
    Except.ok.inj (s.extracted.symm.trans (extract_of_unquoted
      (List.forall_mem_cons.mpr ⟨quote, List.forall_mem_cons.mpr ⟨rfl, unquoted⟩⟩)))
  have lifted := s.lifted
  rw [extracted] at lifted
  obtain ⟨flat, same⟩ := s.leaf call
  have unmarked : wordMark ∉ joinWords (root :: '.' :: p.toList) := by
    intro hmem
    have kept := mem_of_liftNumbers lifted hmem (by decide) rfl
    have inside : wordMark ∈ s.call := by
      rw [same]
      exact List.mem_filter.mpr ⟨kept, by decide⟩
    have searched : Operator.within ∈ searchOrder := by decide
    exact not_token_infix s.tidy.2 searched ((List.singleton_infix_iff _ _).mpr inside)
  rw [joinWords_eq_filter unmarked] at lifted
  have front : (root :: '.' :: p.toList).filter isInk = root :: '.' :: p.toList.filter isInk := by
    rw [List.filter_cons_of_pos (by simp [isInk, blank]), List.filter_cons_of_pos rfl]
  rw [front] at lifted
  have unsigned : '-' ∉ [root, '.'] := by
    simp only [List.mem_cons, List.not_mem_nil, or_false, not_or]
    exact ⟨minus.symm, by decide⟩
  obtain ⟨rest, _, normal⟩ := exists_of_liftNumbers_append (List.cons_ne_nil _ _) unsigned
    (show liftNumbers [] none ([root, '.'] ++ p.toList.filter isInk) = _ from lifted)
  have written : bare s.normal = root :: '.' :: bare rest := by
    rw [normal]
    exact (bare_cons opening closing _).trans
      (congrArg (root :: ·) (bare_cons (by decide) (by decide) rest))
  have read := s.read
  rw [same, written] at read
  refine ⟨String.ofList (bare rest), ?_, s.normal, s.table, lifted, ?_⟩
  · have number : isNumber (root :: '.' :: bare rest) = false :=
      Infix.isNumber_of_head (by rcases hr with rfl | rfl <;> decide) minus
    have alone : '(' ∉ root :: '.' :: bare rest := by rwa [← written, ← same]
    exact Except.ok.inj (read.symm.trans
      (Infix.readCall_of_leaf number alone (readLeaf?_reference hr s.table (bare rest))))
  · rw [written, String.toList_ofList]

theorem reduces_self {root : Char} {p : List Char} (hr : root = '@' ∨ root = '$')
    (h : Unbroken p) : Reduces root p p := by
  have inked : p.filter isInk = p :=
    List.filter_eq_self.mpr fun c hc => by simp [isInk, (h.isClean c hc).1]
  have reduces := reduces_of_unsigned hr h.minus_not_mem
  rwa [inked, bare_eq_self h.noParens] at reduces

theorem references_reference (root : Char) (q : String) : (reference root q).references = [q] := by
  rw [reference]
  split <;> rfl

/-- What the references of a root are looked up in. -/
def origin (root : Char) (subject : Subject) : Option Value :=
  if root = '@' then some subject.element else subject.context

/-- The key of such references in an expression that is written as an object. -/
def referenceKey (root : Char) : String := if root = '@' then "var" else "context"

theorem predicate_reference (root : Char) (q : String) (subject : Subject) :
    (reference root q).predicate subject = lookUp q (origin root subject) := by
  rw [reference, origin]
  split <;> rfl

theorem predicate_reference_eq {root : Char} {subject : Subject} {v : Value}
    (h : origin root subject = some v) (q : String) :
    (reference root q).predicate subject = (Segment.ofDotted q).valueAt v := by
  rw [predicate_reference, h]
  rfl

theorem ofJson_reference {root : Char} (hr : root = '@' ∨ root = '$') (p : String) :
    ofJson (.object [(referenceKey root, .string p)]) = .ok (reference root p) := by
  rcases hr with rfl | rfl <;>
    simp [ofJson, referenceKey, referencePath, reference, Except.map]

theorem run_of_not_isIterating {engine : Engine} {p : String} {plan : Plan}
    (h : Plan.compile engine ("$." ++ p) = .ok plan) (flat : plan.isIterating = false)
    (v context : Value) : plan.run v context = (Segment.ofDotted p).valueAt v := by
  rw [Plan.run, if_neg (by simp [flat]), Plan.start_of_compile h flat]

/-- A path without wildcards and a reference with this path give the same value. A reference that is
written as an object always has the path as it stands. One between operators has the reduced path,
which is the same just where nothing in the path breaks it. -/
theorem reference_eq_run {engine : Engine} {p : String} {plan : Plan}
    (h : Plan.compile engine ("$." ++ p) = .ok plan) (flat : plan.isIterating = false)
    {root : Char} (hr : root = '@' ∨ root = '$') :
    (∃ e, ofJson (.object [(referenceKey root, .string p)]) = .ok e ∧
      ∀ subject v context, origin root subject = some v →
        e.predicate subject = plan.run v context) ∧
    ((∀ c ∈ p.toList, isQuote c = false) →
      ∀ e, parse (String.ofList (root :: '.' :: p.toList)) = .ok e → e.isCall = false →
        ∃ q : String, e = reference root q ∧ Reduces root p.toList q.toList ∧
          ('-' ∉ p.toList → q.toList = bare (p.toList.filter isInk)) ∧
          (q = p ↔ Unbroken p.toList) ∧
          ∀ subject v, origin root subject = some v →
            e.predicate subject = (Segment.ofDotted q).valueAt v ∧
            (Unbroken p.toList → ∀ context, e.predicate subject = plan.run v context)) := by
  have value := run_of_not_isIterating h flat
  constructor
  · refine ⟨_, ofJson_reference hr p, fun subject v context hv => ?_⟩
    rw [predicate_reference_eq hv, value]
  · intro unquoted e parsed call
    obtain ⟨q, rfl, reduces⟩ := eq_reference_of_parse hr unquoted parsed call
    have unbroken : Unbroken q.toList :=
      unbroken_of_parse parsed q (by rw [references_reference]; exact List.mem_singleton_self q)
    have same : q = p ↔ Unbroken p.toList := by
      constructor
      · rintro rfl
        exact unbroken
      · intro whole
        exact String.toList_injective (reduces.functional (reduces_self hr whole))
    refine ⟨q, rfl, reduces, fun unsigned => reduces.functional (reduces_of_unsigned hr unsigned),
      same, fun subject v hv => ⟨predicate_reference_eq hv q, fun whole context => ?_⟩⟩
    rw [predicate_reference_eq hv, value, same.mpr whole]

theorem reference_eq_run_nested :
    ∃ plan, Plan.compile .standard "$.a.length" = .ok plan ∧ plan.isIterating = false ∧
      parse "@.a.length" = .ok (.element "a.length") ∧
      ∀ subject, (element "a.length").predicate subject = plan.run subject.element .null := by
  have compiled : Plan.compile .standard ("$." ++ "a.length") =
      .ok ⟨"$.a.length", [⟨"a", false⟩, ⟨"length", false⟩], []⟩ := by with_unfolding_all rfl
  have parsed : parse (String.ofList ('@' :: '.' :: "a.length".toList)) =
      .ok (.element "a.length") := by with_unfolding_all rfl
  have unquoted : ∀ c ∈ "a.length".toList, isQuote c = false := List.all_iff_forall_prop.mp rfl
  have whole : Unbroken "a.length".toList := unbroken_of_parse parsed _ (List.mem_singleton_self _)
  obtain ⟨_, infixed⟩ := reference_eq_run compiled rfl (.inl rfl)
  obtain ⟨q, _, _, _, _, values⟩ := infixed unquoted _ parsed rfl
  exact ⟨_, compiled, rfl, parsed, fun subject => (values subject _ rfl).2 whole .null⟩

/-- A key with a blank is read from a path, and loses the blank between operators. -/
theorem reference_ne_run_blank :
    ∃ plan, Plan.compile .standard "$.a b" = .ok plan ∧ plan.isIterating = false ∧
      parse "@.a b" = .ok (.element "ab") ∧
      ∃ v, (element "ab").predicate ⟨v, none⟩ ≠ plan.run v .null := by
  refine ⟨⟨"$.a b", [⟨"a b", false⟩], []⟩, by with_unfolding_all rfl, rfl,
    by with_unfolding_all rfl, .object [("a b", .integer 1)], ?_⟩
  have missing : (element "ab").predicate ⟨.object [("a b", .integer 1)], none⟩ = .null := by
    with_unfolding_all rfl
  rw [missing]
  exact fun he => Value.noConfusion he

end Expression

end DocumentPath
