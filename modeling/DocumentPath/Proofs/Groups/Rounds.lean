import Mathlib.Logic.Relation
import DocumentPath.Proofs.Groups.Resolution

namespace DocumentPath.Filter

open Infix (IsOperand EndsOperand StartsBehind)

/-- One operator goes in front of its operands, which end where no operand goes on. -/
inductive Round : List Char → List Char → Prop
  | negate {a w b : List Char} : IsOperand w → StartsBehind b →
    Round (a ++ (token .not ++ (w ++ b))) (a ++ (callText .not w ++ b))
  | join {a v w b : List Char} {op : Operator} : op ∈ searchOrder → EndsOperand a → IsOperand v →
    IsOperand w → StartsBehind b →
    Round (a ++ (v ++ (token op ++ (w ++ b)))) (a ++ (callText op (v ++ ',' :: w) ++ b))

theorem isOperand_headOperand {cs : List Char} (h : headOperand cs ≠ []) :
    IsOperand (headOperand cs) := ⟨h, isOperandChar_of_mem_headOperand⟩

theorem isOperand_lastOperand {cs : List Char} (h : lastOperand cs ≠ []) :
    IsOperand (lastOperand cs) :=
  ⟨h, fun c hc => isOperandChar_of_mem_headOperand c (List.mem_reverse.mp hc)⟩

theorem startsBehind_afterHead (cs : List Char) : StartsBehind (afterHead cs) := by
  cases h : afterHead cs with
  | nil => rfl
  | cons c ds => exact not_isOperandChar_of_afterHead h

theorem endsOperand_beforeLast (cs : List Char) : EndsOperand (beforeLast cs) := by
  rw [EndsOperand, beforeLast, List.getLast?_reverse]
  exact startsBehind_afterHead cs.reverse

theorem Parting.round_negate {text : List Char} (p : Parting [.not] (scan text))
    (hne : headOperand (render p.after) ≠ []) :
    Round text (render p.before ++ callText p.op (headOperand (render p.after)) ++
      afterHead (render p.after)) := by
  have hop : p.op = .not := List.mem_singleton.mp p.op_mem
  have written : text = render p.before ++ (token .not ++
      (headOperand (render p.after) ++ afterHead (render p.after))) := by
    rw [headOperand_append_afterHead]
    have parts := p.text_eq
    rwa [hop] at parts
  have round := Round.negate (a := render p.before) (isOperand_headOperand hne)
    (startsBehind_afterHead (render p.after))
  rw [hop]
  rwa [← written, ← List.append_assoc] at round

theorem Parting.round_join {tier : List Operator} {text : List Char} (p : Parting tier (scan text))
    (known : p.op ∈ searchOrder) (hRight : headOperand (render p.after) ≠ [])
    (hLeft : lastOperand (render p.before) ≠ []) :
    Round text (beforeLast (render p.before) ++
      callText p.op (lastOperand (render p.before) ++ ',' :: headOperand (render p.after)) ++
      afterHead (render p.after)) := by
  have written : text = beforeLast (render p.before) ++ (lastOperand (render p.before) ++
      (token p.op ++ (headOperand (render p.after) ++ afterHead (render p.after)))) := by
    rw [headOperand_append_afterHead, ← List.append_assoc, beforeLast_append_lastOperand]
    exact p.text_eq
  have round := Round.join known (endsOperand_beforeLast (render p.before))
    (isOperand_lastOperand hLeft) (isOperand_headOperand hRight)
    (startsBehind_afterHead (render p.after))
  rwa [← written, ← List.append_assoc] at round

theorem round_of_negateOnce {text : List Char} {t : { text' : List Char // TakesOne text text' }}
    (h : negateOnce text = .ok (some t)) : Round text t.1 := by
  rw [negateOnce] at h
  split at h
  · cases h
  · rename_i p _
    split at h
    · rename_i hne
      cases h
      exact p.round_negate hne
    · cases h

theorem round_of_joinOnce {tier : Tier} {text : List Char}
    {t : { text' : List Char // TakesOne text text' }} (h : tier.joinOnce text = .ok (some t)) :
    Round text t.1 := by
  rw [Tier.joinOnce] at h
  split at h
  · cases h
  · rename_i p _
    split at h
    · rename_i hne
      cases h
      exact p.round_join (tier.known p.op p.op_mem) hne.1 hne.2
    · cases h

/-- Many rounds, one after the other. -/
abbrev Rounds : List Char → List Char → Prop := Relation.ReflTransGen Round

/-- Putting a text without parentheses of its own into call form goes round by round. -/
theorem rounds_of_rewriteFlat {text w : List Char} (h : rewriteFlat text = .ok w) :
    Rounds text w := by
  have negates (cs : List Char) (t) (ht : negateOnce cs = .ok (some t)) (rounds : Rounds text cs) :
      Rounds text t.1 := rounds.tail (round_of_negateOnce ht)
  have joins (tier : Tier) (cs : List Char) (t) (ht : tier.joinOnce cs = .ok (some t))
      (rounds : Rounds text cs) : Rounds text t.1 := rounds.tail (round_of_joinOnce ht)
  exact (rewriteFlat_spec negates joins h .refl).1

/-- What every round keeps holds in the end. -/
theorem Rounds.invariant {P : List Char → Prop} (keeps : ∀ cs ds, Round cs ds → P cs → P ds)
    {cs w : List Char} (h : Rounds cs w) (hcs : P cs) : P w := by
  induction h with
  | refl => exact hcs
  | tail _ round ih => exact keeps _ _ round ih

theorem Round.opening_mem {cs ds : List Char} (h : Round cs ds) : '(' ∈ ds := by
  cases h <;> simp [callText]

/-- A text either has no operator, or it comes to have parentheses. -/
theorem Rounds.eq_or_opening_mem {cs w : List Char} (h : Rounds cs w) : w = cs ∨ '(' ∈ w := by
  cases h with
  | refl => exact .inl rfl
  | tail _ round => exact .inr round.opening_mem

/-- The text without its parentheses. -/
def bare (cs : List Char) : List Char := cs.filter fun c => c ≠ '(' ∧ c ≠ ')'

theorem bare_append (cs ds : List Char) : bare (cs ++ ds) = bare cs ++ bare ds :=
  List.filter_append ..

theorem bare_eq_self {cs : List Char} (h : ∀ c ∈ cs, c ≠ '(' ∧ c ≠ ')') : bare cs = cs :=
  List.filter_eq_self.mpr fun c hc => decide_eq_true (h c hc)

theorem bare_cons {c : Char} (h1 : c ≠ '(') (h2 : c ≠ ')') (cs : List Char) :
    bare (c :: cs) = c :: bare cs :=
  List.filter_cons_of_pos (decide_eq_true ⟨h1, h2⟩)

theorem bare_group (g cs : List Char) : bare ('(' :: (g ++ ')' :: cs)) = bare g ++ bare cs := by
  have opening : bare ('(' :: (g ++ ')' :: cs)) = bare (g ++ ')' :: cs) :=
    List.filter_cons_of_neg (by decide)
  have closing : bare (')' :: cs) = bare cs := List.filter_cons_of_neg (by decide)
  rw [opening, bare_append, closing]

/-- Groups without operators in them just lose their parentheses. -/
theorem Resolves.eq_bare {cs flat : List Char} (h : Resolves cs flat) (hf : '(' ∉ flat) :
    flat = bare cs := by
  induction h with
  | nil => rfl
  | char h1 h2 _ ih =>
    rw [bare_cons h1 h2, ih fun hmem => hf (List.mem_cons_of_mem _ hmem)]
  | @group g inner w cs flat _ hw _ inside behind =>
    have here : w = inner := (rounds_of_rewriteFlat hw).eq_or_opening_mem.resolve_right
      fun hmem => hf (List.mem_append_left flat hmem)
    rw [bare_group, behind fun hmem => hf (List.mem_append_right w hmem), here,
      inside fun hmem => hf (List.mem_append_left flat (here ▸ hmem))]

/-- A text that comes to have no parentheses has lost them, and nothing else. -/
theorem eq_bare_of_rewrite {cs w : List Char} (h : rewrite cs = .ok w) (hw : '(' ∉ w) :
    w = bare cs := by
  obtain ⟨flat, resolved, done⟩ := exists_resolves_of_rewrite h
  have same := (rounds_of_rewriteFlat done).eq_or_opening_mem.resolve_right hw
  rw [same]
  exact resolved.eq_bare (same ▸ hw)

end DocumentPath.Filter
