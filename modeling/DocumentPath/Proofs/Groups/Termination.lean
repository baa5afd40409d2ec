import DocumentPath.Proofs.Groups.Recursion
import DocumentPath.Proofs.Groups.Rounds

namespace DocumentPath.Filter

/-- A loop repeats its step until it finds nothing more or fails. The number counts the rounds that
it has made. -/
inductive Loops (step : Step) : List Char → Nat → Except ExpressionFault (List Char) → Prop
  | done {text : List Char} : step text = .ok none → Loops step text 0 (.ok text)
  | fault {text : List Char} {fault : ExpressionFault} :
    step text = .error fault → Loops step text 0 (.error fault)
  | round {text : List Char} {next : { text' : List Char // TakesOne text text' }} {n : Nat}
    {outcome : Except ExpressionFault (List Char)} :
    step text = .ok (some next) → Loops step next.1 n outcome → Loops step text (n + 1) outcome

/-- Loops one after the other. The fault of one is the end of all. -/
inductive InTurn : List Step → List Char → Nat → Except ExpressionFault (List Char) → Prop
  | nil {text : List Char} : InTurn [] text 0 (.ok text)
  | fault {step : Step} {steps : List Step} {text : List Char} {n : Nat} {fault : ExpressionFault} :
    Loops step text n (.error fault) → InTurn (step :: steps) text n (.error fault)
  | cons {step : Step} {steps : List Step} {text next : List Char} {n m : Nat}
    {outcome : Except ExpressionFault (List Char)} :
    Loops step text n (.ok next) → InTurn steps next m outcome →
    InTurn (step :: steps) text (n + m) outcome

/-- The loops over a text: that of the negation, then those of the tiers. -/
def loops : List Step := negateOnce :: tiers.map Tier.joinOnce

/-- A text is read from left to right behind what it has become so far. Each group runs by itself as
soon as it is closed, and the loops follow at the end. -/
inductive Runs : List Char → List Char → Nat → Except ExpressionFault (List Char) → Prop
  | done {front : List Char} {n : Nat} {outcome : Except ExpressionFault (List Char)} :
    InTurn loops front n outcome → Runs front [] n outcome
  | char {front cs : List Char} {c : Char} {n : Nat}
    {outcome : Except ExpressionFault (List Char)} :
    c ≠ '(' → c ≠ ')' → Runs (front ++ [c]) cs n outcome → Runs front (c :: cs) n outcome
  | group {front g w cs : List Char} {n m : Nat} {outcome : Except ExpressionFault (List Char)} :
    Nested g → Runs [] g n (.ok w) → Runs (front ++ w) cs m outcome →
    Runs front ('(' :: (g ++ ')' :: cs)) (n + m) outcome
  | groupFault {front g cs : List Char} {n : Nat} {fault : ExpressionFault} :
    Nested g → Runs [] g n (.error fault) → Runs front ('(' :: (g ++ ')' :: cs)) n (.error fault)
  | stray {front cs : List Char} : Runs front (')' :: cs) 0 (.error .strayClose)
  | unclosed {front cs : List Char} : Inside 0 cs → Runs front ('(' :: cs) 0 (.error .unclosed)

section Outcomes

variable {step : Step} {steps : List Step} {text front cs : List Char} {n : Nat}
  {outcome : Except ExpressionFault (List Char)}

theorem exists_loops (step : Step) (text : List Char) :
    ∃ n, Loops step text n (exhaust step text) := by
  fun_induction exhaust step text with
  | case1 text fault failed => exact ⟨0, .fault failed⟩
  | case2 text none => exact ⟨0, .done none⟩
  | case3 text next takes found ih =>
    obtain ⟨n, rest⟩ := ih
    exact ⟨n + 1, .round found rest⟩

theorem Loops.eq_exhaust (h : Loops step text n outcome) : outcome = exhaust step text := by
  induction h with
  | done none => rw [exhaust, none]
  | fault failed => rw [exhaust, failed]
  | round found _ ih => rw [exhaust, found, ih]

theorem exists_inTurn (steps : List Step) (text : List Char) :
    ∃ n, InTurn steps text n (steps.foldlM (fun text step => exhaust step text) text) := by
  induction steps generalizing text with
  | nil => exact ⟨0, .nil⟩
  | cons step steps ih =>
    obtain ⟨n, first⟩ := exists_loops step text
    rw [List.foldlM_cons]
    cases ended : exhaust step text with
    | error fault =>
      rw [ended] at first
      exact ⟨n, .fault first⟩
    | ok next =>
      rw [ended] at first
      obtain ⟨m, rest⟩ := ih next
      exact ⟨n + m, .cons first rest⟩

theorem InTurn.eq_foldlM (h : InTurn steps text n outcome) :
    outcome = steps.foldlM (fun text step => exhaust step text) text := by
  induction h with
  | nil => rfl
  | fault first =>
    rw [List.foldlM_cons, ← first.eq_exhaust]
    rfl
  | cons first _ ih =>
    rw [List.foldlM_cons, ← first.eq_exhaust, ih]
    rfl

theorem rewriteFlat_eq_foldlM (text : List Char) :
    rewriteFlat text = loops.foldlM (fun text step => exhaust step text) text := by
  simp only [loops, List.foldlM_cons, List.foldlM_map]
  rfl

/-- Every text has a run, and its outcome is that of rewriting. -/
theorem exists_runs (front cs : List Char) :
    ∃ n, Runs front cs n (rewriteGroups [] (.ok front) cs) := by
  induction hl : cs.length using Nat.strong_induction_on generalizing front cs with
  | _ length ih =>
    cases cs with
    | nil =>
      obtain ⟨n, turn⟩ := exists_inTurn loops front
      rw [← rewriteFlat_eq_foldlM] at turn
      exact ⟨n, .done turn⟩
    | cons c cs =>
      by_cases opening : c = '('
      · subst opening
        rcases inside_or_group cs with inside | ⟨g, rest, rfl, nested⟩
        · rw [rewriteGroups_opening_unclosed inside]
          exact ⟨0, .unclosed inside⟩
        · have shorter : g.length < length ∧ rest.length < length := by
            simp only [← hl, List.length_cons, List.length_append]
            omega
          obtain ⟨n, group⟩ := ih g.length shorter.1 [] g rfl
          rw [rewriteGroups_nested nested]
          cases ended : rewrite g with
          | error fault =>
            rw [← rewrite, ended] at group
            exact ⟨n, .groupFault nested group⟩
          | ok w =>
            rw [← rewrite, ended] at group
            obtain ⟨m, behind⟩ := ih rest.length shorter.2 (front ++ w) rest rfl
            exact ⟨n + m, .group nested group behind⟩
      by_cases closing : c = ')'
      · subst closing
        exact ⟨0, .stray⟩
      · obtain ⟨n, behind⟩ := ih cs.length (by simp [← hl]) (front ++ [c]) cs rfl
        rw [rewriteGroups_cons_char opening closing]
        exact ⟨n, .char opening closing behind⟩

theorem Runs.eq_rewriteGroups (h : Runs front cs n outcome) :
    outcome = rewriteGroups [] (.ok front) cs := by
  induction h with
  | done turn => rw [turn.eq_foldlM, ← rewriteFlat_eq_foldlM]; rfl
  | char opening closing _ ih => rw [rewriteGroups_cons_char opening closing, ih]; rfl
  | group nested _ _ inside behind =>
    rw [rewriteGroups_nested nested, rewrite, ← inside, behind]
    rfl
  | groupFault nested _ inside =>
    rw [rewriteGroups_nested nested, rewrite, ← inside]
    rfl
  | stray => rfl
  | unclosed inside => rw [rewriteGroups_opening_unclosed inside]

end Outcomes

section Measures

variable {step : Step} {steps : List Step} {text text' front cs w : List Char} {n : Nat}
  {outcome : Except ExpressionFault (List Char)}

theorem countP_eq_zero (h : ∀ c ∈ w, isOperatorChar c = false) : w.countP isOperatorChar = 0 := by
  rw [List.countP_eq_zero]
  intro c hc
  rw [h c hc]
  exact Bool.false_ne_true

theorem countP_token_pos (op : Operator) : 0 < (token op).countP isOperatorChar := by
  cases op <;> decide

theorem countP_callText (op : Operator) (operands : List Char) :
    (callText op operands).countP isOperatorChar = operands.countP isOperatorChar := by
  have opening : isOperatorChar '(' = false := by decide
  have closing : isOperatorChar ')' = false := by decide
  have name := countP_eq_zero (not_isOperatorChar_of_mem_name op)
  simp [callText, List.countP_append, name, opening, closing]

theorem length_token_lt (op : Operator) : (token op).length < op.name.toList.length + 2 := by
  cases op <;> decide

/-- A round uses up the characters of its operator. -/
theorem Round.countP_lt (h : Round text text') :
    text'.countP isOperatorChar < text.countP isOperatorChar := by
  cases h with
  | negate _ _ =>
    have taken := countP_token_pos .not
    simp only [List.countP_append, countP_callText]
    omega
  | @join _ _ _ _ op _ _ _ _ _ =>
    have taken := countP_token_pos op
    have comma : isOperatorChar ',' = false := by decide
    simp only [List.countP_append, List.countP_cons, countP_callText, comma]
    simp only [Bool.false_eq_true, if_false]
    omega

/-- The call form is longer than the operator that it stands for. -/
theorem Round.length_lt (h : Round text text') : text.length < text'.length := by
  cases h with
  | negate _ _ =>
    have longer := length_token_lt .not
    simp only [callText, List.length_append, List.length_cons, List.length_nil]
    omega
  | @join _ _ _ _ op _ _ _ _ _ =>
    have longer := length_token_lt op
    simp only [callText, List.length_append, List.length_cons, List.length_nil]
    omega

theorem round_of_mem_loops (h : step ∈ loops)
    {next : { text' : List Char // TakesOne text text' }} (found : step text = .ok (some next)) :
    Round text next.1 := by
  rw [loops, List.mem_cons, List.mem_map] at h
  rcases h with rfl | ⟨tier, _, rfl⟩
  · exact round_of_negateOnce found
  · exact round_of_joinOnce found

/-- The characters of operators that an outcome still has. -/
def signsLeft : Except ExpressionFault (List Char) → Nat
  | .ok w => w.countP isOperatorChar
  | .error _ => 0

theorem Loops.rounds_le_operators (h : Loops step text n outcome) :
    n ≤ (operators text).length := by
  induction h with
  | done _ => exact Nat.zero_le _
  | fault _ => exact Nat.zero_le _
  | @round text next n _ _ _ ih =>
    have fewer := next.2.length_lt
    omega

/-- A loop makes as many rounds as it takes operators. -/
theorem Loops.length_operators (h : Loops step text n (.ok w)) :
    (operators text).length = n + (operators w).length := by
  generalize ended : Except.ok w = outcome at h
  induction h with
  | done _ =>
    cases ended
    rw [Nat.zero_add]
  | fault _ => cases ended
  | @round text next n _ _ _ ih =>
    obtain ⟨l, op, r, before, after⟩ := next.2
    rw [after] at ih
    have rest := ih ended
    simp only [before, List.length_append, List.length_cons] at rest ⊢
    omega

theorem Loops.rounds_le (mem : step ∈ loops) (h : Loops step text n outcome) :
    n + signsLeft outcome ≤ text.countP isOperatorChar := by
  induction h with
  | done _ => simp [signsLeft]
  | fault _ => simp [signsLeft]
  | round found _ ih =>
    have fewer := (round_of_mem_loops mem found).countP_lt
    omega

theorem InTurn.rounds_le (mem : ∀ step ∈ steps, step ∈ loops) (h : InTurn steps text n outcome) :
    n + signsLeft outcome ≤ text.countP isOperatorChar := by
  induction h with
  | nil => simp [signsLeft]
  | fault first => exact first.rounds_le (List.forall_mem_cons.mp mem).1
  | cons first _ ih =>
    obtain ⟨known, others⟩ := List.forall_mem_cons.mp mem
    have here := first.rounds_le known
    have behind := ih others
    rw [signsLeft] at here
    omega

/-- Every round of a run uses up characters of operators, and none comes in. -/
theorem Runs.rounds_le (h : Runs front cs n outcome) :
    n + signsLeft outcome ≤ front.countP isOperatorChar + cs.countP isOperatorChar := by
  induction h with
  | done turn => exact turn.rounds_le fun _ known => known
  | char _ _ _ ih =>
    rw [List.countP_append, List.countP_singleton] at ih
    rw [List.countP_cons]
    omega
  | group _ _ _ inside behind =>
    rw [List.countP_append] at behind
    rw [List.countP_cons, List.countP_append, List.countP_cons]
    rw [signsLeft, List.countP_nil] at inside
    omega
  | groupFault _ _ inside =>
    rw [List.countP_cons, List.countP_append, List.countP_cons]
    rw [List.countP_nil] at inside
    omega
  | stray => simp [signsLeft]
  | unclosed _ => simp [signsLeft]

end Measures

/-- Rewriting leaves no operator in any text. -/
theorem operators_rewriteFlat {text w : List Char} (h : rewriteFlat text = .ok w) :
    operators w = [] :=
  (rewriteFlat_spec (P := fun _ => True) (fun _ _ _ _ => trivial) (fun _ _ _ _ _ => trivial) h
    trivial).2

theorem operators_rewrite {text w : List Char} (h : rewrite text = .ok w) : operators w = [] := by
  obtain ⟨flat, _, done⟩ := exists_resolves_of_rewrite h
  exact operators_rewriteFlat done

/-- Every round takes just one operator out of a text that grows, so the loops come to an end on every
text and leave no operator. -/
theorem rewrite_takes_operators (text : List Char) :
    (∀ step ∈ loops, ∀ next, step text = .ok (some next) →
      text.length < next.1.length ∧
        ∃ l op r, operators text = l ++ op :: r ∧ operators next.1 = l ++ r) ∧
    (∀ step ∈ loops, ∃ n ≤ (operators text).length, Loops step text n (exhaust step text) ∧
      ∀ w, exhaust step text = .ok w → (operators text).length = n + (operators w).length) ∧
    (∃ n, Runs [] text n (rewrite text)) ∧
    (∀ n outcome, Runs [] text n outcome →
      outcome = rewrite text ∧ n ≤ text.countP isOperatorChar) ∧
    ∀ w, rewrite text = .ok w → operators w = [] := by
  refine ⟨?_, ?_, exists_runs [] text, ?_, fun w => operators_rewrite⟩
  · intro step known next found
    exact ⟨(round_of_mem_loops known found).length_lt, next.2⟩
  · intro step known
    obtain ⟨n, loop⟩ := exists_loops step text
    refine ⟨n, loop.rounds_le_operators, loop, fun w ended => ?_⟩
    rw [ended] at loop
    exact loop.length_operators
  · intro n outcome run
    have bound := run.rounds_le
    rw [List.countP_nil] at bound
    exact ⟨run.eq_rewriteGroups, by omega⟩

/-- A run through a group in which two operators stand side by side. -/
theorem rewrite_takes_operators_in_group :
    operators "a!==!b".toList = [.strictNe, .not] ∧
      rewrite "(a!==!b)".toList = .ok "neeq(a,not(b))".toList ∧
      operators "neeq(a,not(b))".toList = [] ∧
      ∃ n ≤ 4, Runs [] "(a!==!b)".toList n (rewrite "(a!==!b)".toList) := by
  have written : rewrite "(a!==!b)".toList = .ok "neeq(a,not(b))".toList := by
    with_unfolding_all rfl
  obtain ⟨_, _, ⟨n, run⟩, bounds, clean⟩ := rewrite_takes_operators "(a!==!b)".toList
  have rounds : n ≤ "(a!==!b)".toList.countP isOperatorChar := (bounds n _ run).2
  exact ⟨by with_unfolding_all rfl, written, clean _ written, n, rounds.trans (by decide), run⟩

end DocumentPath.Filter
