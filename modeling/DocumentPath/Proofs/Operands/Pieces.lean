import DocumentPath.Proofs.Adjacency.Groups
import DocumentPath.Proofs.Operands.Composition

namespace DocumentPath.Filter

section Splitting

variable {d : Int} {w cs : List Char}

theorem splitOperands_comma (cs : List Char) :
    splitOperands 0 (',' :: cs) = [] :: splitOperands 0 cs := by
  rw [splitOperands, if_pos ⟨rfl, rfl⟩]

/-- Commas part nothing as long as some parenthesis stays open. -/
theorem splitOperands_open (h : ∀ u v, w = u ++ v → 0 < d + depth u) (cs : List Char) :
    splitOperands d (w ++ cs) = (splitOperands (d + depth w) cs).modifyHead (w ++ ·) := by
  induction w generalizing d with
  | nil =>
    rw [depth_of_no_parens (List.forall_mem_nil _), Int.add_zero, List.nil_append]
    cases splitOperands d cs <;> rfl
  | cons c w ih =>
    have here : 0 < d + depth [] := h [] _ rfl
    rw [depth_of_no_parens (List.forall_mem_nil _), Int.add_zero] at here
    have tail : ∀ u v, w = u ++ v → 0 < d + depth [c] + depth u := by
      rintro u v rfl
      have := h (c :: u) v rfl
      rwa [depth_cons, ← Int.add_assoc] at this
    rw [List.cons_append, Infix.splitOperands_cons (by omega), depth_singleton, ih tail,
      depth_cons c w, ← Int.add_assoc]
    exact Infix.modifyHead_append [c] w _

theorem Nested.intact_callText (h : Nested w) (op : Operator) : Infix.Intact (callText op w) := by
  refine Infix.intact_callText fun d cs positive => ?_
  have open' : ∀ u v, w = u ++ v → 0 < d + depth u := by
    intro u v he
    have := h.opened u v he
    omega
  rw [splitOperands_open open', h.closed, Int.add_zero]

theorem splitOperands_append_comma_of (h : ∀ u v, w = u ++ v → 0 ≤ d + depth u)
    (closed : d + depth w = 0) (cs : List Char) :
    splitOperands d (w ++ ',' :: cs) = splitOperands d w ++ splitOperands 0 cs := by
  induction w generalizing d with
  | nil =>
    rw [depth_of_no_parens (List.forall_mem_nil _), Int.add_zero] at closed
    rw [closed, List.nil_append, splitOperands_comma]
    rfl
  | cons c w ih =>
    have tail : ∀ u v, w = u ++ v → 0 ≤ d + depth [c] + depth u := by
      rintro u v rfl
      have := h (c :: u) v rfl
      rwa [depth_cons, ← Int.add_assoc] at this
    rw [depth_cons, ← Int.add_assoc] at closed
    have rest := ih tail closed
    rw [List.cons_append]
    by_cases comma : c = ',' ∧ d = 0
    · obtain ⟨rfl, rfl⟩ := comma
      rw [splitOperands_comma, splitOperands_comma]
      exact congrArg ([] :: ·) rest
    · rw [Infix.splitOperands_cons comma, Infix.splitOperands_cons comma, depth_singleton, rest]
      have some := splitOperands_ne_nil (d + depth [c]) w
      cases hs : splitOperands (d + depth [c]) w with
      | nil => exact absurd hs some
      | cons p ps => rfl

/-- A comma outside all parentheses parts the operands on both sides of it. -/
theorem Nested.splitOperands_append_comma (h : Nested w) (cs : List Char) :
    splitOperands 0 (w ++ ',' :: cs) = splitOperands 0 w ++ splitOperands 0 cs := by
  refine splitOperands_append_comma_of (fun u v he => ?_) (by rw [h.closed]; rfl) cs
  rw [Int.zero_add]
  exact h.opened u v he

end Splitting

/-- Texts that are composed, and the commas of all of them and between them. -/
inductive Pieces : Nat → List (List Char) → Prop
  | last {n : Nat} {p : List Char} : Composed n p → Pieces n [p]
  | cons {m n : Nat} {p : List Char} {ps : List (List Char)} : Composed m p → Pieces n ps →
    Pieces (m + n + 1) (p :: ps)

/-- What is put in front of the first text brings its commas. -/
theorem Pieces.modifyHead {l n : Nat} {w : List Char} {ps : List (List Char)} (hw : Composed l w)
    (h : Pieces n ps) : Pieces (l + n) (ps.modifyHead (w ++ ·)) := by
  cases h with
  | last first => exact .last (hw.append first)
  | @cons m k _ _ first rest =>
    have total : l + (m + k + 1) = l + m + k + 1 := by omega
    rw [total]
    exact .cons (hw.append first) rest

theorem Pieces.behindCall {l n : Nat} {op : Operator} {inner cs : List Char}
    (call : Composed l (callText op inner)) (inside : Nested inner)
    (h : Pieces n (splitOperands 0 cs)) :
    Pieces (l + n) (splitOperands 0 (callText op inner ++ cs)) := by
  rw [inside.intact_callText op 0 cs (Int.le_refl 0)]
  exact h.modifyHead call

/-- The operands in a composed text are composed, and each of its commas is in one of them or parts
two. -/
theorem Composed.pieces {n : Nat} {cs : List Char} (h : Composed n cs) :
    Pieces n (splitOperands 0 cs) := by
  induction h with
  | nil => exact .last .nil
  | comma _ ih =>
    rw [splitOperands_comma]
    have pieces := Pieces.cons .nil ih
    rwa [Nat.zero_add] at pieces
  | @char _ c cs comma opening closing _ ih =>
    have first : Composed 0 [c] := .char comma opening closing .nil
    rw [Infix.splitOperands_cons fun h => comma h.1, if_neg opening, if_neg closing]
    have pieces := ih.modifyHead first
    rwa [Nat.zero_add] at pieces
  | negation operand inside _ _ ih => exact ih.behindCall (inside.negated operand) inside.nested
  | joint known operand left right _ _ _ ih =>
    exact ih.behindCall (.joined known operand left right) (left.operands right).nested

/-- A text up to its first parenthesis and what that closes are the name and the operands of a
call. -/
theorem eq_of_callText {op : Operator} {w inner inner' cs : List Char} (hw : '(' ∉ w)
    (inside : Nested inner) (inside' : Nested inner')
    (h : w ++ '(' :: (inner ++ [')']) = callText op inner' ++ cs) :
    w = op.name.toList ∧ inner = inner' ∧ cs = [] := by
  have cut : op.name.toList ++ '(' :: (inner' ++ ')' :: cs) = w ++ '(' :: (inner ++ [')']) := by
    rw [h, callText]
    simp
  obtain ⟨rest, rfl, behind⟩ := exists_of_append_eq_cut (opening_not_mem_name op) cut
  cases rest with
  | nil =>
    obtain ⟨same, none⟩ := inside'.eq_of_closing inside (List.cons.inj behind).2
    exact ⟨List.append_nil _, same.symm, none⟩
  | cons c rest =>
    obtain ⟨rfl, _⟩ := List.cons.inj behind
    exact absurd (List.mem_append_right _ List.mem_cons_self) hw

/-- A word ends with the name of an operator whose operands are composed, and they have so many
commas that the operator did not put there. -/
inductive Ends (w inner : List Char) : Nat → Prop
  | negation {n : Nat} : Operator.not.name.toList <:+ w → Composed n inner → Ends w inner n
  | joint {l m : Nat} {op : Operator} {u v : List Char} : op ∈ searchOrder →
    op.name.toList <:+ w → inner = u ++ ',' :: v → Composed l u → Composed m v →
    Ends w inner (l + m)

theorem Ends.cons {n : Nat} {w inner : List Char} (h : Ends w inner n) (c : Char) :
    Ends (c :: w) inner n := by
  cases h with
  | negation name inside => exact .negation (name.trans (List.suffix_cons c w)) inside
  | joint known name parts left right =>
    exact .joint known (name.trans (List.suffix_cons c w)) parts left right

/-- A call in a composed text was made of an operator and the operands beside it, but a word that
stands in front may make its name a longer one. -/
theorem Composed.ends {n : Nat} {w inner : List Char} (hw : ∀ c ∈ w, c ≠ '(' ∧ c ≠ ')' ∧ c ≠ ',')
    (inside : Nested inner) (h : Composed n (w ++ '(' :: (inner ++ [')']))) : Ends w inner n := by
  generalize ht : w ++ '(' :: (inner ++ [')']) = text at h
  have opening {w : List Char} (hw : ∀ c ∈ w, c ≠ '(' ∧ c ≠ ')' ∧ c ≠ ',') : '(' ∉ w :=
    fun hmem => (hw _ hmem).1 rfl
  induction h generalizing w with
  | nil => simp at ht
  | comma _ _ =>
    cases w with
    | nil => simp at ht
    | cons c w =>
      obtain ⟨rfl, _⟩ := List.cons.inj ht
      exact absurd rfl (hw _ List.mem_cons_self).2.2
  | char _ other _ _ ih =>
    cases w with
    | nil => exact absurd (List.cons.inj ht).1.symm other
    | cons c w =>
      obtain ⟨rfl, tail⟩ := List.cons.inj ht
      exact (ih (List.forall_mem_cons.mp hw).2 tail).cons c
  | negation _ first behind _ _ =>
    obtain ⟨rfl, rfl, rfl⟩ := eq_of_callText (opening hw) inside first.nested ht
    rw [behind.eq_zero List.not_mem_nil]
    exact .negation List.suffix_rfl first
  | joint known _ left right behind _ _ _ =>
    obtain ⟨rfl, rfl, rfl⟩ := eq_of_callText (opening hw) inside (left.operands right).nested ht
    rw [behind.eq_zero List.not_mem_nil, Nat.add_zero]
    exact .joint known List.suffix_rfl rfl left right

end DocumentPath.Filter
