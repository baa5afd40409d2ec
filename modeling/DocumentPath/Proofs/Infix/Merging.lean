import DocumentPath.Proofs.Infix.Grammar

namespace DocumentPath.Infix

open DocumentPath.Filter

/-- Operands with operators between them: the first one, then the others, each with the operator in
front of it. -/
structure Chain (α : Type) where
  first : α
  rest : List (Operator × α)

namespace Chain

/-- One chain behind the other, with an operator between them. -/
def join {α : Type} (c : Chain α) (op : Operator) (d : Chain α) : Chain α :=
  ⟨c.first, c.rest ++ (op, d.first) :: d.rest⟩

def map {α β : Type} (f : α → β) (c : Chain α) : Chain β :=
  ⟨f c.first, c.rest.map fun link => (link.1, f link.2)⟩

theorem map_join {α β : Type} (f : α → β) (c : Chain α) (op : Operator) (d : Chain α) :
    (c.join op d).map f = (c.map f).join op (d.map f) := by
  simp [map, join]

/-- Joins the operands of some operators, from left to right. -/
def merge (ops : List Operator) (w : List Char) :
    List (Operator × List Char) → Chain (List Char)
  | [] => ⟨w, []⟩
  | (op, v) :: links =>
    if op ∈ ops then merge ops (callText op (w ++ ',' :: v)) links
    else
      let c := merge ops v links
      ⟨w, (op, c.first) :: c.rest⟩

/-- Merges the operators of the first tiers, one tier after the other. -/
def mergeTiers (k : Nat) (c : Chain (List Char)) : Chain (List Char) :=
  (tiers.take k).foldl (fun c tier => merge tier.operators c.first c.rest) c

variable {ops : List Operator} {op : Operator} {v w : List Char} {c d : Chain (List Char)}

/-- An operator of another tier keeps what is on its left apart from what is on its right. -/
theorem merge_join_of_not_mem (h : op ∉ ops) (c d : Chain (List Char)) :
    merge ops (c.join op d).first (c.join op d).rest =
      (merge ops c.first c.rest).join op (merge ops d.first d.rest) := by
  obtain ⟨w, links⟩ := c
  simp only [join]
  induction links generalizing w with
  | nil => simp [merge, h]
  | cons link links ih =>
    obtain ⟨o, v⟩ := link
    by_cases ho : o ∈ ops
    · simpa [merge, ho] using ih _
    · simp [merge, ho, ih]

/-- An operator of the tier takes what its left has become as its left operand. -/
theorem merge_join_of_mem (h : op ∈ ops) (hc : merge ops c.first c.rest = ⟨v, []⟩)
    (d : Chain (List Char)) :
    merge ops (c.join op d).first (c.join op d).rest =
      merge ops (callText op (v ++ ',' :: d.first)) d.rest := by
  obtain ⟨w, links⟩ := c
  simp only [join] at hc ⊢
  induction links generalizing w with
  | nil =>
    cases hc
    simp [merge, h]
  | cons link links ih =>
    obtain ⟨o, u⟩ := link
    by_cases ho : o ∈ ops
    · simp only [merge, ho, if_true, List.cons_append] at hc ⊢
      exact ih _ hc
    · simp [merge, ho] at hc

theorem mergeTiers_succ {k : Nat} (h : k < tiers.length) (c : Chain (List Char)) :
    mergeTiers (k + 1) c =
      merge (tiers.get ⟨k, h⟩).operators (mergeTiers k c).first (mergeTiers k c).rest := by
  have take : tiers.take (k + 1) = tiers.take k ++ [tiers.get ⟨k, h⟩] := by simp
  rw [mergeTiers, take, List.foldl_append]
  rfl

theorem mergeTiers_single (k : Nat) (w : List Char) : mergeTiers k ⟨w, []⟩ = ⟨w, []⟩ := by
  have (l : List Tier) :
      l.foldl (fun c tier => merge tier.operators c.first c.rest) (⟨w, []⟩ : Chain (List Char)) =
        ⟨w, []⟩ := by
    induction l with
    | nil => rfl
    | cons tier l ih => exact ih
  exact this _

theorem mem_tier_iff {k : Nat} (h : k < tiers.length) (op : Operator) :
    op ∈ (tiers.get ⟨k, h⟩).operators ↔ rank op = k + 1 := by
  have all : ∀ k : Fin tiers.length, ∀ op ∈ Operator.all,
      (op ∈ (tiers.get k).operators ↔ rank op = k.val + 1) := by decide
  exact all ⟨k, h⟩ op (by cases op <;> decide)

theorem mergeTiers_join {k : Nat} (hk : k < rank op) (hr : rank op ≤ tiers.length)
    (c d : Chain (List Char)) :
    mergeTiers k (c.join op d) = (mergeTiers k c).join op (mergeTiers k d) := by
  induction k with
  | zero => rfl
  | succ k ih =>
    have hlt : k < tiers.length := by omega
    have other : op ∉ (tiers.get ⟨k, hlt⟩).operators := by
      rw [mem_tier_iff]
      omega
    rw [mergeTiers_succ hlt, mergeTiers_succ hlt, mergeTiers_succ hlt, ih (by omega)]
    exact merge_join_of_not_mem other _ _

theorem rank_le_length (op : Operator) : rank op ≤ tiers.length := by
  cases op <;> decide

theorem mergeTiers_of_le {j k : Nat} (hjk : j ≤ k) (hc : mergeTiers j c = ⟨w, []⟩) :
    mergeTiers k c = ⟨w, []⟩ := by
  have parts : tiers.take k = tiers.take j ++ (tiers.take k).drop j := by
    conv => lhs; rw [← List.take_append_drop j (tiers.take k)]
    rw [List.take_take, Nat.min_eq_left hjk]
  rw [mergeTiers, parts, List.foldl_append]
  change List.foldl _ (mergeTiers j c) _ = _
  rw [hc]
  generalize (tiers.take k).drop j = l
  induction l with
  | nil => rfl
  | cons tier l ih => exact ih

/-- When the left operand is done by the tier of the operator and the right one before it, the two
become one operand. -/
theorem mergeTiers_join_single (hop : 0 < rank op) (hc : mergeTiers (rank op) c = ⟨v, []⟩)
    (hd : mergeTiers (rank op - 1) d = ⟨w, []⟩) :
    mergeTiers (rank op) (c.join op d) = ⟨callText op (v ++ ',' :: w), []⟩ := by
  obtain ⟨k, hk⟩ : ∃ k, rank op = k + 1 := ⟨rank op - 1, by omega⟩
  have hlt : k < tiers.length := by
    have := rank_le_length op
    omega
  rw [hk, Nat.add_sub_cancel] at hd
  rw [hk, mergeTiers_succ hlt] at hc
  rw [hk, mergeTiers_succ hlt, mergeTiers_join (by omega) (rank_le_length op), hd,
    merge_join_of_mem ((mem_tier_iff hlt op).mpr hk) hc]
  rfl

end Chain

end DocumentPath.Infix
