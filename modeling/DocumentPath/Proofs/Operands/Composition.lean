import DocumentPath.Proofs.Literals.Glyphs

namespace DocumentPath.Filter

open Infix (EndsOperand StartsBehind)

/-- A text whose parentheses are those of calls, and each call was made of an operator and the
operands beside it. It has so many commas that no operator put there. -/
inductive Composed : Nat → List Char → Prop
  | nil : Composed 0 []
  | comma {n : Nat} {cs : List Char} : Composed n cs → Composed (n + 1) (',' :: cs)
  | char {n : Nat} {c : Char} {cs : List Char} : c ≠ ',' → c ≠ '(' → c ≠ ')' → Composed n cs →
    Composed n (c :: cs)
  | negation {m n : Nat} {w cs : List Char} : (∀ c ∈ w, isOperandChar c = true) → Composed m w →
    Composed n cs → Composed (m + n) (callText .not w ++ cs)
  | joint {l m n : Nat} {op : Operator} {v w cs : List Char} : op ∈ searchOrder →
    (∀ c ∈ v ++ ',' :: w, isOperandChar c = true) → Composed l v → Composed m w → Composed n cs →
    Composed (l + m + n) (callText op (v ++ ',' :: w) ++ cs)

namespace Composed

variable {l m n : Nat} {cs ds : List Char}

theorem append (h : Composed m cs) (h' : Composed n ds) : Composed (m + n) (cs ++ ds) := by
  induction h with
  | nil =>
    rw [Nat.zero_add]
    exact h'
  | comma _ ih =>
    rw [Nat.add_right_comm]
    exact .comma ih
  | char comma opening closing _ ih => exact .char comma opening closing ih
  | negation operand inside _ _ ih =>
    rw [List.append_assoc, Nat.add_assoc]
    exact .negation operand inside ih
  | joint known operand left right _ _ _ ih =>
    rw [List.append_assoc, Nat.add_assoc]
    exact .joint known operand left right ih

theorem operands {v w : List Char} (left : Composed l v) (right : Composed m w) :
    Composed (l + m + 1) (v ++ ',' :: w) := left.append right.comma

theorem negated {w : List Char} (operand : ∀ c ∈ w, isOperandChar c = true) (h : Composed n w) :
    Composed n (callText .not w) := by
  have call := Composed.negation operand h .nil
  rwa [List.append_nil] at call

theorem joined {op : Operator} {v w : List Char} (known : op ∈ searchOrder)
    (operand : ∀ c ∈ v ++ ',' :: w, isOperandChar c = true) (left : Composed l v)
    (right : Composed m w) : Composed (l + m) (callText op (v ++ ',' :: w)) := by
  have call := Composed.joint known operand left right .nil
  rwa [List.append_nil] at call

theorem nested (h : Composed n cs) : Nested cs := by
  have call {op : Operator} {inner : List Char} (inside : Nested inner) :
      Nested (callText op inner) := (nested_name op).append inside.parens
  induction h with
  | nil => exact nested_nil
  | comma _ ih => exact nested_comma.append ih
  | @char _ c _ _ opening closing _ ih =>
    have first : Nested [c] :=
      nested_of_no_parens (List.forall_mem_singleton.mpr ⟨opening, closing⟩)
    exact first.append ih
  | negation _ _ _ inside behind => exact (call inside).append behind
  | joint _ _ _ _ _ left right behind =>
    exact (call (left.append (nested_comma.append right))).append behind

/-- Without commas there are none of its own. -/
theorem eq_zero (h : Composed n cs) (comma : ',' ∉ cs) : n = 0 := by
  induction h with
  | nil => rfl
  | comma _ _ => exact absurd List.mem_cons_self comma
  | char _ _ _ _ ih => exact ih fun hmem => comma (List.mem_cons_of_mem _ hmem)
  | negation _ _ _ inside behind =>
    rw [List.mem_append, not_or] at comma
    rw [inside fun hmem => comma.1 (by simp [callText, hmem]), behind comma.2]
  | joint _ _ _ _ _ _ _ _ => exact absurd (by simp [callText]) comma

/-- A character that belongs to no operand stands outside all calls. -/
theorem split {a b : List Char} {c : Char} (h : Composed n (a ++ c :: b))
    (hc : isOperandChar c = false) : ∃ l m, n = l + m ∧ Composed l a ∧ Composed m b := by
  have outside {op : Operator} {inner : List Char} (operand : ∀ d ∈ inner, isOperandChar d = true) :
      c ∉ callText op inner := fun hmem =>
    absurd ((Infix.isOperandChar_of_mem_callText operand c hmem).symm.trans hc) (by decide)
  generalize hd : a ++ c :: b = ds at h
  induction h generalizing a with
  | nil => simp at hd
  | comma rest ih =>
    cases a with
    | nil =>
      obtain ⟨rfl, _⟩ := List.cons.inj hd
      cases hc
    | cons d a =>
      obtain ⟨rfl, tail⟩ := List.cons.inj hd
      obtain ⟨l, m, rfl, left, right⟩ := ih tail
      exact ⟨l + 1, m, Nat.add_right_comm l m 1, left.comma, right⟩
  | char comma opening closing rest ih =>
    cases a with
    | nil =>
      obtain ⟨rfl, rfl⟩ := List.cons.inj hd
      exact ⟨0, _, (Nat.zero_add _).symm, .nil, rest⟩
    | cons d a =>
      obtain ⟨rfl, tail⟩ := List.cons.inj hd
      obtain ⟨l, m, rfl, left, right⟩ := ih tail
      exact ⟨l, m, rfl, left.char comma opening closing, right⟩
  | negation operand inside _ _ ih =>
    obtain ⟨rest, rfl, tail⟩ := exists_of_append_eq_cut (outside operand) hd.symm
    obtain ⟨l, m, rfl, left, right⟩ := ih tail.symm
    exact ⟨_, m, (Nat.add_assoc _ l m).symm, .negation operand inside left, right⟩
  | joint known operand first second _ _ _ ih =>
    obtain ⟨rest, rfl, tail⟩ := exists_of_append_eq_cut (outside operand) hd.symm
    obtain ⟨l, m, rfl, left, right⟩ := ih tail.symm
    exact ⟨_, m, (Nat.add_assoc _ l m).symm, .joint known operand first second left, right⟩

/-- An operator parts a composed text into composed texts. -/
theorem around {a t b : List Char} (h : Composed n (a ++ (t ++ b))) (hne : t ≠ [])
    (ht : ∀ c ∈ t, isOperandChar c = false) : ∃ l m, n = l + m ∧ Composed l a ∧ Composed m b := by
  induction t generalizing n a with
  | nil => exact absurd rfl hne
  | cons c t ih =>
    obtain ⟨here, others⟩ := List.forall_mem_cons.mp ht
    obtain ⟨l, m, rfl, left, right⟩ := h.split here
    by_cases more : t = []
    · rw [more] at right
      exact ⟨l, m, rfl, left, right⟩
    · obtain ⟨l', m', rfl, none, behind⟩ := ih (a := []) right more others
      rw [none.eq_zero List.not_mem_nil, Nat.zero_add]
      exact ⟨l, m', rfl, left, behind⟩

theorem outside {c : Char} (hc : isOperandChar c = false) (h : Composed n cs) :
    Composed n (c :: cs) := by
  refine h.char ?_ (not_paren_of_not_isOperandChar hc).1 (not_paren_of_not_isOperandChar hc).2
  rintro rfl
  cases hc

/-- A composed text can be parted where an operand ends. -/
theorem before {w b : List Char} (h : Composed n (w ++ b)) (starts : StartsBehind b) :
    ∃ l m, n = l + m ∧ Composed l w ∧ Composed m b := by
  cases b with
  | nil =>
    rw [List.append_nil] at h
    exact ⟨n, 0, rfl, h, .nil⟩
  | cons c b =>
    obtain ⟨l, m, rfl, left, right⟩ := h.split starts
    exact ⟨l, m, rfl, left, right.outside starts⟩

theorem behind {a v : List Char} (h : Composed n (a ++ v)) (ends : EndsOperand a) :
    ∃ l m, n = l + m ∧ Composed l a ∧ Composed m v := by
  rcases List.eq_nil_or_concat' a with rfl | ⟨b, c, rfl⟩
  · exact ⟨0, n, (Nat.zero_add n).symm, .nil, h⟩
  · rw [EndsOperand, List.getLast?_concat] at ends
    rw [List.append_assoc, List.singleton_append] at h
    obtain ⟨l, m, rfl, left, right⟩ := h.split ends
    exact ⟨l, m, rfl, left.append (Composed.nil.outside ends), right⟩

end Composed

/-- A round composes one call more. -/
theorem Round.composed {n : Nat} {cs ds : List Char} (h : Round cs ds) (hn : Composed n cs) :
    Composed n ds := by
  cases h with
  | negate operand starts =>
    obtain ⟨l, m, rfl, left, rest⟩ := hn.around (token_ne_nil _) not_isOperandChar_of_mem_token
    obtain ⟨i, j, rfl, inside, right⟩ := rest.before starts
    exact left.append (.negation operand.2 inside right)
  | join known ends first second starts =>
    rw [← List.append_assoc] at hn
    obtain ⟨l, m, rfl, front, rest⟩ := hn.around (token_ne_nil _) not_isOperandChar_of_mem_token
    obtain ⟨i, j, rfl, left, v⟩ := front.behind ends
    obtain ⟨k, r, rfl, w, right⟩ := rest.before starts
    have comma : isOperandChar ',' = true := rfl
    have operand := List.forall_mem_append.mpr ⟨first.2, List.forall_mem_cons.mpr ⟨comma, second.2⟩⟩
    have total : i + j + (k + r) = i + (j + k + r) := by omega
    rw [total]
    exact left.append (.joint known operand v w right)

theorem Composed.rewriteFlat {n : Nat} {cs w : List Char} (h : Composed n cs)
    (hw : rewriteFlat cs = .ok w) : Composed n w :=
  (rounds_of_rewriteFlat hw).invariant (fun _ _ round hn => round.composed hn) h

/-- Groups that stand as their call forms bring the commas they had. -/
theorem Resolves.composed {cs flat : List Char} (h : Resolves cs flat) :
    Composed (cs.count ',') flat := by
  induction h with
  | nil => exact .nil
  | @char c cs _ opening closing _ ih =>
    by_cases comma : c = ','
    · rw [comma, List.count_cons_self]
      exact ih.comma
    · rw [List.count_cons_of_ne comma]
      exact ih.char comma opening closing
  | @group g _ _ cs _ _ hw _ inside behind =>
    have commas : ('(' :: (g ++ ')' :: cs)).count ',' = g.count ',' + cs.count ',' := by
      rw [List.count_cons_of_ne (by decide), List.count_append, List.count_cons_of_ne (by decide)]
    rw [commas]
    exact (inside.rewriteFlat hw).append behind

/-- A text in call form is composed, and it has the commas of its text besides those of its
calls. -/
theorem composed_of_rewrite {cs w : List Char} (h : rewrite cs = .ok w) :
    Composed (cs.count ',') w := by
  obtain ⟨flat, resolved, done⟩ := exists_resolves_of_rewrite h
  exact resolved.composed.rewriteFlat done

end DocumentPath.Filter
