import DocumentPath.Command.Task
import DocumentPath.Proofs.Traversal.Matches

namespace DocumentPath

namespace Cursor

variable {levels : List Level}

/-- The traversal after some calls of `next`. -/
def after (context : Value) : Nat → Cursor levels → Cursor levels
  | 0, cursor => cursor
  | n + 1, cursor => after context n (next context cursor).2

theorem remaining_after (context : Value) (n : Nat) (cursor : Cursor levels) :
    (cursor.after context n).remaining context = (cursor.remaining context).drop n := by
  induction n generalizing cursor with
  | zero => rfl
  | succ n ih => rw [after, ih, (next_remaining context cursor).2, List.drop_tail]

/-- Every call gives the match whose turn it is; once there is none, no call gives one. -/
theorem next_after (context : Value) (n : Nat) (cursor : Cursor levels) :
    (next context (cursor.after context n)).1 = (cursor.remaining context)[n]? := by
  rw [(next_remaining context _).1, remaining_after, List.head?_drop]

theorem take_eq (context : Value) (limit : Nat) (cursor : Cursor levels) :
    cursor.take context limit = (cursor.remaining context).take limit := by
  induction limit generalizing cursor with
  | zero => rfl
  | succ limit ih =>
    obtain ⟨first, rest⟩ := next_remaining context cursor
    rw [take]
    cases hr : cursor.remaining context with
    | nil =>
      rw [hr] at first
      split
      · simp_all
      · rfl
    | cons found left =>
      rw [hr] at first rest
      split
      · rename_i taken behind hn
        rw [hn] at first rest
        cases first
        rw [ih, rest]
        rfl
      · simp_all

theorem toList_eq (context : Value) (cursor : Cursor levels) :
    cursor.toList context = cursor.remaining context := by
  fun_induction toList context cursor with
  | case1 cursor found left hn ih =>
    obtain ⟨first, rest⟩ := next_remaining context cursor
    rw [hn] at first rest
    obtain ⟨tail, hc⟩ := List.head?_eq_some_iff.mp first.symm
    rw [ih, rest, hc]
    rfl
  | case2 cursor left hn =>
    obtain ⟨first, _⟩ := next_remaining context cursor
    rw [hn] at first
    exact (List.head?_eq_none_iff.mp first.symm).symm

end Cursor

namespace Plan

theorem remaining_cursor (plan : Plan) (data context : Value) :
    (plan.cursor data).remaining context = plan.meaning data context := by
  by_cases h : plan.isIterating = true
  · rw [cursor, dif_pos h, meaning]
    cases Segment.array? plan.start data with
    | some items =>
      have entered := Cursor.pending_enter context plan.levels items []
      rwa [List.length_nil, List.drop_zero, Cursor.pending, List.append_nil] at entered
    | none => exact (matchesFrom_empty context plan.levels).symm
  · have flat : plan.levels = [] := by simpa [isIterating] using h
    have nothing : plan.meaning data context = [] := by rw [meaning, flat, matchesFrom]
    rw [cursor, dif_neg h, nothing]
    rfl

theorem allMatches_eq_meaning (plan : Plan) (data context : Value) :
    plan.allMatches data context = plan.meaning data context := by
  rw [allMatches, Cursor.toList_eq, remaining_cursor]

theorem accepts_of_mem_allMatches {plan : Plan} {data context : Value} {found : Match}
    (h : found ∈ plan.allMatches data context) :
    ∃ last ∈ plan.levels.getLast?, ∃ hlt : found.index < found.owner.length,
      last.accepts context found.owner[found.index] = true := by
  rw [allMatches_eq_meaning] at h
  obtain ⟨last, hlast, item, hitem, accepted, _⟩ := mem_matchesFrom h
  obtain ⟨hlt, rfl⟩ := List.getElem?_eq_some_iff.mp hitem
  exact ⟨last, hlast, hlt, accepted⟩

end Plan

namespace Command

/-- An array without the items from some place on. -/
def firstItems (limit : Nat) : Value → Value
  | .array items => .array (items.take limit)
  | v => v

/-- Asking for the matches one by one gives the first of what a query gives all at once. -/
theorem query_stepwise {path : String} {plan : Plan} (h : Plan.compile .standard path = .ok plan)
    (hi : plan.isIterating = true) (parents : Bool) (limit : Nat) (other : Option Nat)
    (source : Source) :
    query path ⟨parents, true, some limit⟩ source =
      (query path ⟨parents, false, other⟩ source).map (firstItems limit) := by
  have hlazy : Plan.compileLazy .standard path = .ok plan := by
    simp [Plan.compileLazy, h, hi, bind, Except.bind, pure, Except.pure]
  cases hs : source.read with
  | error failure => simp [query, hs, bind, Except.bind, Except.map]
  | ok documents =>
    obtain ⟨data, context⟩ := documents
    have taken : (plan.cursor data).take context limit =
        (plan.allMatches data context).take limit := by
      rw [Cursor.take_eq, Plan.remaining_cursor, Plan.allMatches_eq_meaning]
    have compiled : ofCompiled (.ok plan : Except Error Plan) = .ok plan := rfl
    cases parents <;>
      simp [query, hs, hlazy, h, compiled, taken, Plan.run, hi, firstItems, bind, Except.bind,
        pure, Except.pure, Except.map, List.map_take]

end Command

/-- Asking a traversal for matches until there is none gives what the plan means, one match at a
time, and after the last there is none for ever. Every way to ask for matches goes by it. -/
theorem Plan.traversal_eq_meaning (plan : Plan) (data context : Value) :
    (plan.cursor data).toList context = plan.meaning data context ∧
    (∀ n, (Cursor.next context ((plan.cursor data).after context n)).1 =
      (plan.meaning data context)[n]?) ∧
    (∀ m n, m ≤ n → (Cursor.next context ((plan.cursor data).after context m)).1 = none →
      (Cursor.next context ((plan.cursor data).after context n)).1 = none) ∧
    (plan.isIterating = true →
      plan.run data context = .array ((plan.allMatches data context).map Match.value)) ∧
    (∀ found ∈ plan.allMatches data context,
      ∃ last ∈ plan.levels.getLast?, ∃ h : found.index < found.owner.length,
        last.accepts context found.owner[found.index] = true) ∧
    (∀ limit, (plan.cursor data).take context limit =
      (plan.allMatches data context).take limit) ∧
    (∀ path, Plan.compile .standard path = .ok plan → plan.isIterating = true →
      ∀ parents limit other source, Command.query path ⟨parents, true, some limit⟩ source =
        (Command.query path ⟨parents, false, other⟩ source).map (Command.firstItems limit)) := by
  have nth (n : Nat) : (Cursor.next context ((plan.cursor data).after context n)).1 =
      (plan.meaning data context)[n]? := by
    rw [Cursor.next_after, remaining_cursor]
  refine ⟨?_, nth, ?_, ?_, fun found h => accepts_of_mem_allMatches h, ?_, ?_⟩
  · rw [Cursor.toList_eq, remaining_cursor]
  · intro m n hle h
    rw [nth, List.getElem?_eq_none_iff] at h ⊢
    omega
  · intro hi
    rw [run, if_pos hi]
  · intro limit
    rw [Cursor.take_eq, remaining_cursor, allMatches_eq_meaning]
  · intro path h hi parents limit other source
    exact Command.query_stepwise h hi parents limit other source

end DocumentPath
