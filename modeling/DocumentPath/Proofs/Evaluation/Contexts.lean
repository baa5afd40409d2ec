import DocumentPath.Proofs.Traversal.Enumeration
import DocumentPath.Removal
import DocumentPath.Writing

namespace DocumentPath

namespace Expression

/-- How operands are decided depends on their values only. -/
theorem firstDeciding_congr {s t : Subject} {ps : List Predicate} (h : ∀ p ∈ ps, p s = p t)
    (decides : Value → Bool) : firstDeciding decides s ps = firstDeciding decides t ps := by
  induction ps with
  | nil => rfl
  | cons p ps ih =>
    obtain ⟨first, rest⟩ := List.forall_mem_cons.mp h
    cases ps with
    | nil => exact first
    | cons q qs => simp only [firstDeciding, first, ih rest]

theorem predicate_call_congr {s t : Subject} {operands : List Expression}
    (h : ∀ p ∈ predicates operands, p s = p t) (op : Operator) :
    (call op operands).predicate s = (call op operands).predicate t := by
  have values : (predicates operands).map (· s) = (predicates operands).map (· t) :=
    List.map_congr_left h
  cases op with
  | and => exact firstDeciding_congr h _
  | or => exact firstDeciding_congr h _
  | _ => exact congrArg (Operator.apply _) values

mutual

/-- An expression that never reads the context has one value at an element, whatever the context
is. -/
theorem predicate_congr {e : Expression} (h : e.usesContext = false) (item : Value)
    (c d : Option Value) : e.predicate ⟨item, c⟩ = e.predicate ⟨item, d⟩ := by
  cases e with
  | literal v => rfl
  | element path => rfl
  | context path => cases h
  | call op operands => exact predicate_call_congr (predicates_congr h item c d) op

theorem predicates_congr {es : List Expression} (h : anyUsesContext es = false) (item : Value)
    (c d : Option Value) : ∀ p ∈ predicates es, p ⟨item, c⟩ = p ⟨item, d⟩ := by
  cases es with
  | nil => exact List.forall_mem_nil _
  | cons e es =>
    obtain ⟨first, rest⟩ := Bool.or_eq_false_iff.mp h
    exact List.forall_mem_cons.mpr ⟨predicate_congr first item c d, predicates_congr rest item c d⟩

end

end Expression

/-- Leaving the context out where it is never read makes no difference. -/
theorem Filter.accepts_standard {e : Expression} {p : Predicate}
    (h : Engine.standard.build e = .ok p) (context item : Value) :
    Filter.accepts ⟨e, p⟩ context item = (p ⟨item, some context⟩).isTruthy := by
  cases h
  rw [Filter.accepts]
  cases uses : e.usesContext with
  | true => rfl
  | false => exact congrArg Value.isTruthy (Expression.predicate_congr uses item _ _)

/-- Whether no filter of the levels reads the context. -/
def ContextFree (levels : List Level) : Prop :=
  ∀ level ∈ levels, ∀ filter ∈ level.filter, filter.expression.usesContext = false

/-- Whether two contexts let the same elements pass at every level. -/
def Alike (c d : Value) (levels : List Level) : Prop :=
  ∀ level ∈ levels, level.accepts c = level.accepts d

theorem ContextFree.alike {levels : List Level} (h : ContextFree levels) (c d : Value) :
    Alike c d levels := by
  intro level hlevel
  funext item
  rw [Level.accepts, Level.accepts]
  cases hf : level.filter with
  | none => rfl
  | some filter =>
    have free := h level hlevel filter hf
    simp [Filter.accepts, free]

section Runs

variable {c d : Value} {levels : List Level}

theorem matchesFrom_congr (h : Alike c d levels) (items : List Value) :
    matchesFrom c levels items = matchesFrom d levels items := by
  induction levels generalizing items with
  | nil => rfl
  | cons level deeper ih =>
    obtain ⟨here, below⟩ := List.forall_mem_cons.mp h
    have inner : matchesFrom c deeper = matchesFrom d deeper := funext (ih below)
    simp only [matchesFrom, here, inner]

theorem removeFrom_congr (h : Alike c d levels) (items : List Value) :
    removeFrom c levels items = removeFrom d levels items := by
  induction levels generalizing items with
  | nil => rfl
  | cons level deeper ih =>
    obtain ⟨here, below⟩ := List.forall_mem_cons.mp h
    cases deeper with
    | nil => simp only [removeFrom, here]
    | cons next deeper =>
      have inner : removeFrom c (next :: deeper) = removeFrom d (next :: deeper) :=
        funext (ih below)
      simp only [removeFrom, here, inner]

theorem writeLevels_congr {σ : Type} (mutator : Mutator σ) (h : Alike c d levels) (state : σ)
    (items : List Value) :
    writeLevels mutator c levels state items = writeLevels mutator d levels state items := by
  induction levels generalizing state items with
  | nil => rfl
  | cons level deeper ih =>
    obtain ⟨here, below⟩ := List.forall_mem_cons.mp h
    cases deeper with
    | nil => simp only [writeLevels, here]
    | cons next deeper =>
      have inner : writeLevels mutator c (next :: deeper) =
          writeLevels mutator d (next :: deeper) :=
        funext fun state => funext fun items => ih below state items
      simp only [writeLevels, here, inner]

namespace Plan

variable {plan : Plan}

theorem allMatches_congr (h : Alike c d plan.levels) (data : Value) :
    plan.allMatches data c = plan.allMatches data d := by
  rw [allMatches_eq_meaning, allMatches_eq_meaning]
  exact matchesFrom_congr h _

theorem remove_congr (h : Alike c d plan.levels) (data : Value) :
    plan.remove data c = plan.remove data d := by
  have same : removeFrom c plan.levels = removeFrom d plan.levels := funext (removeFrom_congr h)
  rw [remove, remove, same]

theorem write_congr {σ : Type} (mutator : Mutator σ) (h : Alike c d plan.levels) (state : σ)
    (data : Value) : plan.write mutator state data c = plan.write mutator state data d := by
  have same : writeLevels mutator c plan.levels = writeLevels mutator d plan.levels :=
    funext fun state => funext fun items => writeLevels_congr mutator h state items
  rw [write, write, same]

end Plan

end Runs

namespace Plan

/-- Where the context is not read it may be left out, and it does not show. An expression that never
reads it has one value at an element, so a filter accepts what it would accept with the context
always given, and a plan without filters that read it finds, takes out and writes the same under any
two contexts. -/
theorem context_unread :
    (∀ e p, Engine.standard.build e = .ok p →
      (e.usesContext = false → ∀ item c d,
        p ⟨item, none⟩ = p ⟨item, some c⟩ ∧ p ⟨item, some c⟩ = p ⟨item, some d⟩) ∧
      ∀ context item,
        Filter.accepts ⟨e, p⟩ context item = (p ⟨item, some context⟩).isTruthy) ∧
    (∀ plan : Plan, ContextFree plan.levels → ∀ data c d,
      plan.run data c = plan.run data d ∧
      plan.allMatches data c = plan.allMatches data d ∧
      (∀ limit, (plan.cursor data).take c limit = (plan.cursor data).take d limit) ∧
      plan.remove data c = plan.remove data d ∧
      ∀ (σ : Type) (mutator : Mutator σ) (state : σ),
        plan.write mutator state data c = plan.write mutator state data d) := by
  constructor
  · intro e p built
    refine ⟨fun unread item c d => ?_, Filter.accepts_standard built⟩
    cases built
    exact ⟨Expression.predicate_congr unread item _ _, Expression.predicate_congr unread item _ _⟩
  · intro plan free data c d
    have alike := free.alike c d
    have found := allMatches_congr alike data
    refine ⟨?_, found, fun limit => ?_, remove_congr alike data, fun σ mutator state => ?_⟩
    · rw [run, run, found]
    · rw [Cursor.take_eq, Cursor.take_eq, remaining_cursor, remaining_cursor,
        ← allMatches_eq_meaning, ← allMatches_eq_meaning, found]
    · exact write_congr mutator alike state data

theorem context_unread_nested :
    let e : Expression := .call .or [.call .not [.element "a"], .call .within [.element "a",
      .literal (.array [.integer 1, .integer 2])]]
    let plan : Plan := ⟨"$.*{..}.b.*", [], [⟨some ⟨e, e.predicate⟩, [⟨"b", false⟩]⟩, ⟨none, []⟩]⟩
    let data : Value := .array [.object [("a", .integer 2), ("b", .array [.boolean true])],
      .object [("a", .integer 3), ("b", .array [.null])]]
    Engine.standard.build e = .ok e.predicate ∧ e.usesContext = false ∧
    ContextFree plan.levels ∧
    (∀ item c, Filter.accepts ⟨e, e.predicate⟩ c item = (e.predicate ⟨item, none⟩).isTruthy) ∧
    plan.run data .null = .array [.boolean true] ∧
    ∀ c, plan.run data c = .array [.boolean true] := by
  intro e plan data
  obtain ⟨filters, plans⟩ := context_unread
  obtain ⟨values, accepts⟩ := filters e e.predicate rfl
  have unread : e.usesContext = false := rfl
  have free : ContextFree plan.levels := by
    intro level hlevel filter hfilter
    rcases List.mem_cons.mp hlevel with rfl | hlevel
    · cases hfilter
      exact unread
    · cases List.mem_singleton.mp hlevel
      cases hfilter
  have found : plan.run data .null = .array [.boolean true] := by
    rw [run, allMatches_eq_meaning]
    with_unfolding_all rfl
  refine ⟨rfl, unread, free, fun item c => ?_, found, fun c => ?_⟩
  · rw [accepts, (values unread item c c).1]
  · rw [(plans plan free data c .null).1, found]

end Plan

end DocumentPath
