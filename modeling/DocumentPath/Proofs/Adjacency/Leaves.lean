import Mathlib.Data.Bool.AllAny
import DocumentPath.Proofs.Groups.Junctions
import DocumentPath.Proofs.Literals.Indices
import DocumentPath.Proofs.Literals.Normalizing

namespace DocumentPath.Filter

open Expression (reference)

def keywords : List (List Char × Value) := [
  (['t', 'r', 'u', 'e'], .boolean true),
  (['f', 'a', 'l', 's', 'e'], .boolean false),
  (['n', 'u', 'l', 'l'], .null)]

/-- The texts of operands that have no operands of their own. -/
inductive LeafText (table : List Value) : List Char → Expression → Prop
  | number {ds : List Char} {v : Value} : isNumber ds = true → readNumber? ds = some v →
    LeafText table ds (.literal v)
  | keyword {w : List Char} {v : Value} : (w, v) ∈ keywords → LeafText table w (.literal v)
  | root {r : Char} : r = '@' ∨ r = '$' → LeafText table [r] (reference r "")
  | path {r : Char} {p : List Char} : r = '@' ∨ r = '$' →
    LeafText table (r :: '.' :: p) (reference r (String.ofList p))
  | place {ds : List Char} {i : Nat} {v : Value} : Text.readIndex? ds = some i →
    table[i]? = some v → LeafText table ('#' :: ds) (.literal v)

variable {table : List Value}

theorem leafText_of_readLeaf? {text : List Char} {e : Expression}
    (h : readLeaf? table text = some e) : LeafText table text e := by
  unfold readLeaf? at h
  split at h
  · cases h
    exact .root (.inl rfl)
  · cases h
    exact .root (.inr rfl)
  · cases h
    exact .path (.inl rfl)
  · cases h
    exact .path (.inr rfl)
  · obtain ⟨i, index, h⟩ := Option.bind_eq_some_iff.mp h
    obtain ⟨v, found, h⟩ := Option.bind_eq_some_iff.mp h
    cases h
    exact .place index found
  · split_ifs at h with h1 h2 h3 <;> cases h
    · exact h1 ▸ .keyword (by simp [keywords])
    · exact h2 ▸ .keyword (by simp [keywords])
    · exact h3 ▸ .keyword (by simp [keywords])

/-- Text without parentheses is read as a leaf. -/
theorem leafText_of_readCall {text : List Char} {e : Expression} (opening : '(' ∉ text)
    (h : readCall table text = .ok e) : LeafText table text e := by
  rw [readCall] at h
  split at h
  · rename_i number
    split at h <;> cases h
    exact .number number (by assumption)
  · split at h <;> cases h
    exact leafText_of_readLeaf? (by assumption)

theorem LeafText.isCall {text : List Char} {e : Expression} (h : LeafText table text e) :
    e.isCall = false := by
  cases h with
  | root hr => rcases hr with rfl | rfl <;> rfl
  | path hr => rcases hr with rfl | rfl <;> rfl
  | _ => rfl

theorem exists_cons_of_isNumber {ds : List Char} (h : isNumber ds = true) :
    ∃ c cs, ds = c :: cs ∧ (c.isDigit = true ∨ c = '-') := by
  cases ds with
  | nil => cases h
  | cons c cs =>
    refine ⟨c, cs, rfl, ?_⟩
    by_contra other
    rw [not_or] at other
    have : isNumber (c :: cs) = false :=
      Infix.isNumber_of_head (by simpa using other.1) other.2
    rw [this] at h
    cases h

/-- An operand begins neither with a dot nor with a lone sign. -/
theorem LeafText.exists_cons {text : List Char} {e : Expression} (h : LeafText table text e) :
    ∃ c cs, text = c :: cs ∧ c ≠ '.' ∧ isLone c = false := by
  cases h with
  | number number _ =>
    obtain ⟨c, cs, rfl, hc⟩ := exists_cons_of_isNumber number
    refine ⟨c, cs, rfl, ?_⟩
    rcases hc with digit | rfl
    · refine ⟨?_, ?_⟩
      · rintro rfl
        cases digit
      · exact not_isLone_of_isOperandChar
          (Infix.isOperandChar_of_isWordChar (Infix.isWordChar_of_isDigit digit))
    · decide
  | keyword hw =>
    simp only [keywords, List.mem_cons, Prod.mk.injEq, List.not_mem_nil, or_false] at hw
    rcases hw with ⟨rfl, _⟩ | ⟨rfl, _⟩ | ⟨rfl, _⟩ <;> exact ⟨_, _, rfl, by decide, by decide⟩
  | root hr => rcases hr with rfl | rfl <;> exact ⟨_, _, rfl, by decide, by decide⟩
  | path hr => rcases hr with rfl | rfl <;> exact ⟨_, _, rfl, by decide, by decide⟩
  | place _ _ => exact ⟨_, _, rfl, by decide, by decide⟩

theorem LeafText.ne_nil {text : List Char} {e : Expression} (h : LeafText table text e) :
    text ≠ [] := by
  obtain ⟨c, cs, rfl, _⟩ := h.exists_cons
  exact List.cons_ne_nil c cs

theorem LeafText.head?_ne_point {text : List Char} {e : Expression} (h : LeafText table text e) :
    text.head? ≠ some '.' := by
  obtain ⟨c, cs, rfl, point, _⟩ := h.exists_cons
  exact fun he => point (Option.some.inj he)

section Heads

variable {c : Char} {cs : List Char} {e : Expression}

theorem mem_of_keyword {w : List Char} {v : Value} (h : (w, v) ∈ keywords) :
    ∀ d ∈ w, d.isDigit = false ∧ d ∉ ['-', '@', '$', '#'] := by
  simp only [keywords, List.mem_cons, Prod.mk.injEq, List.not_mem_nil, or_false] at h
  rcases h with ⟨rfl, _⟩ | ⟨rfl, _⟩ | ⟨rfl, _⟩ <;> exact List.all_iff_forall_prop.mp rfl

theorem LeafText.isNumber_of_digit (h : LeafText table (c :: cs) e) (digit : c.isDigit = true) :
    isNumber (c :: cs) = true := by
  generalize ht : c :: cs = text at h ⊢
  cases h with
  | number number _ => exact number
  | keyword hw =>
    have other := (mem_of_keyword hw c (ht ▸ List.mem_cons_self)).1
    rw [digit] at other
    cases other
  | root hr =>
    obtain ⟨rfl, _⟩ := List.cons.inj ht
    rcases hr with rfl | rfl <;> cases digit
  | path hr =>
    obtain ⟨rfl, _⟩ := List.cons.inj ht
    rcases hr with rfl | rfl <;> cases digit
  | place _ _ =>
    obtain ⟨rfl, _⟩ := List.cons.inj ht
    cases digit

theorem LeafText.of_sharp (h : LeafText table ('#' :: cs) e) :
    ∃ i v, Text.readIndex? cs = some i ∧ table[i]? = some v ∧ e = .literal v := by
  generalize ht : '#' :: cs = text at h
  cases h with
  | number number _ =>
    rw [← ht, Infix.isNumber_of_head (by decide) (by decide)] at number
    cases number
  | keyword hw =>
    exact absurd (by decide) (mem_of_keyword hw '#' (ht ▸ List.mem_cons_self)).2
  | root hr =>
    obtain ⟨rfl, _⟩ := List.cons.inj ht
    exact absurd hr (by decide)
  | path hr =>
    obtain ⟨rfl, _⟩ := List.cons.inj ht
    exact absurd hr (by decide)
  | place index found =>
    obtain ⟨_, rfl⟩ := List.cons.inj ht
    exact ⟨_, _, index, found, rfl⟩

theorem sharp_not_mem_of_readIndex? {i : Nat} (h : Text.readIndex? cs = some i) : '#' ∉ cs := by
  obtain ⟨ds, parts, digits⟩ := Text.readIndex?_eq_some h
  have none : '#' ∉ ds := fun hmem =>
    absurd ((Text.readDigits?_eq_some digits).2.1 _ hmem) (by decide)
  rcases parts with rfl | rfl
  · exact none
  · rw [List.mem_cons, not_or]
    exact ⟨by decide, none⟩

theorem eq_of_keyword_infix {v w : List Char} {a b : Value} (hv : (v, a) ∈ keywords)
    (hw : (w, b) ∈ keywords) (h : v <:+: w) : v = w := by
  have key : ∀ k ∈ keywords, ∀ l ∈ keywords, k.1 <:+: l.1 → k.1 = l.1 := by decide
  exact key _ hv _ hw h

/-- An operand of letters that can be in a keyword or in a name is a keyword. -/
theorem LeafText.mem_keywords {x : List Char} (h : LeafText table x e)
    (letters : ∀ c ∈ x, c.isDigit = false ∧ c ∉ ['-', '@', '$', '#']) :
    ∃ v, (x, v) ∈ keywords := by
  cases h with
  | number number _ =>
    obtain ⟨c, cs, rfl, hc⟩ := exists_cons_of_isNumber number
    obtain ⟨digit, other⟩ := letters c List.mem_cons_self
    rcases hc with hc | rfl
    · rw [digit] at hc
      cases hc
    · exact absurd (by decide) other
  | keyword hw => exact ⟨_, hw⟩
  | root hr =>
    exact absurd (by rcases hr with rfl | rfl <;> decide) (letters _ List.mem_cons_self).2
  | path hr =>
    exact absurd (by rcases hr with rfl | rfl <;> decide) (letters _ List.mem_cons_self).2
  | place _ _ => exact absurd (by decide) (letters _ List.mem_cons_self).2

/-- No operand is a part of a keyword, but for the keyword itself. -/
theorem LeafText.eq_of_infix_keyword {x w : List Char} {v : Value} (h : LeafText table x e)
    (hw : (w, v) ∈ keywords) (hi : x <:+: w) : x = w := by
  obtain ⟨_, hx⟩ := h.mem_keywords fun c hc => mem_of_keyword hw c (hi.subset hc)
  exact eq_of_keyword_infix hx hw hi

/-- No operand is a part of the name of an operator. -/
theorem LeafText.not_infix_name {x : List Char} {op : Operator} (h : LeafText table x e) :
    ¬x <:+: op.name.toList := by
  have letters : ∀ c ∈ op.name.toList, c.isDigit = false ∧ c ∉ ['-', '@', '$', '#'] := by
    cases op <;> exact List.all_iff_forall_prop.mp rfl
  have key : ∀ op ∈ Operator.all, ∀ k ∈ keywords, ¬k.1 <:+: op.name.toList := by decide +kernel
  intro hi
  obtain ⟨v, hv⟩ := h.mem_keywords fun c hc => letters c (hi.subset hc)
  exact key op (by cases op <;> decide) _ hv hi

/-- How the texts `x` and `y` run together into the text of one operand: into a number, or into a
reference whose path begins or goes on with `y`. -/
inductive Fuses (x y : List Char) : Expression → Prop
  | number {v : Value} : isNumber (x ++ y) = true → readNumber? (x ++ y) = some v →
    Fuses x y (.literal v)
  | root {r : Char} {p : List Char} : r = '@' ∨ r = '$' → x = [r] → y = '.' :: p →
    Fuses x y (reference r (String.ofList p))
  | path {r : Char} {p : List Char} : r = '@' ∨ r = '$' → x = r :: '.' :: p →
    Fuses x y (reference r (String.ofList (p ++ y)))

/-- Where one of two texts is an operand and both together are one, they fuse. -/
theorem LeafText.fuses {x y : List Char} (whole : LeafText [] (x ++ y) e) (hx : x ≠ [])
    (hy : y ≠ []) (part : (∃ f, LeafText [] x f) ∨ ∃ f, LeafText [] y f) : Fuses x y e := by
  generalize ht : x ++ y = text at whole
  cases whole with
  | number number read => exact .number (ht ▸ number) (ht ▸ read)
  | keyword hw =>
    exfalso
    rcases part with ⟨f, left⟩ | ⟨f, right⟩
    · have same := left.eq_of_infix_keyword hw ⟨[], y, ht⟩
      exact hy (List.append_right_eq_self.mp (ht.trans same.symm))
    · have same := right.eq_of_infix_keyword hw ⟨x, [], by rw [ht, List.append_nil]⟩
      exact hx (List.append_left_eq_self.mp (ht.trans same.symm))
  | root hr =>
    obtain ⟨c, cs, rfl⟩ := List.exists_cons_of_ne_nil hx
    exact absurd (List.append_eq_nil_iff.mp (List.cons.inj ht).2).2 hy
  | path hr =>
    obtain ⟨c, cs, rfl⟩ := List.exists_cons_of_ne_nil hx
    obtain ⟨rfl, behind⟩ := List.cons.inj ht
    cases cs with
    | nil => exact .root hr rfl behind
    | cons d cs =>
      obtain ⟨rfl, rfl⟩ := List.cons.inj behind
      exact .path hr rfl
  | place _ found => cases found

/-- Whether the place of a literal runs into text that is not its own: the places are those of some
literals, and they come to stand in a path or with zeros behind them. -/
def Blurs (literals : List Value) (x y : List Char) : Prop :=
  literals ≠ [] ∧ '(' ∉ y ∧
    ((∃ r p, (r = '@' ∨ r = '$') ∧ x = r :: '.' :: p) ∨ x.head? = some '#' ∧ ∀ c ∈ y, c = '0')

/-- Whether a word in front of a call makes the name of its operator that of another one. -/
def Renames (w : List Char) (e : Expression) : Prop :=
  ∃ op op' : Operator, ∃ es, e = .call op es ∧ op'.name.toList = w ++ op.name.toList

theorem sharp_mem_of_few {x : List Char} (few : table.length ≤ x.count '#') (ne : table ≠ []) :
    '#' ∈ x :=
  List.count_pos_iff.mp (Nat.lt_of_lt_of_le (List.length_pos_iff.mpr ne) few)

/-- An operand that has the sign of a place in it is a reference, or it is a place. -/
theorem LeafText.path_or_place {x : List Char} (h : LeafText table x e) (sharp : '#' ∈ x) :
    (∃ r p, (r = '@' ∨ r = '$') ∧ x = r :: '.' :: p) ∨ x.head? = some '#' := by
  cases h with
  | number number _ =>
    exact absurd sharp (not_mem_of_isNumber number (by decide) (by decide) (by decide))
  | keyword hw => exact absurd (by decide) (mem_of_keyword hw _ sharp).2
  | root hr => exact absurd sharp (by rcases hr with rfl | rfl <;> decide)
  | path hr => exact .inl ⟨_, _, hr, rfl⟩
  | place _ _ => exact .inr rfl

/-- In front of the sign of a place that is not the first one of an operand stands a path. -/
theorem LeafText.path_of_sharp {x y : List Char} (whole : LeafText table (x ++ y) e) (hx : x ≠ [])
    (sharp : '#' ∈ y) (point : y.head? ≠ some '.') :
    ∃ r p, (r = '@' ∨ r = '$') ∧ x = r :: '.' :: p := by
  generalize ht : x ++ y = text at whole
  have inside : '#' ∈ text := ht ▸ List.mem_append_right x sharp
  obtain ⟨c, cs, rfl⟩ := List.exists_cons_of_ne_nil hx
  cases whole with
  | number number _ =>
    exact absurd inside (not_mem_of_isNumber number (by decide) (by decide) (by decide))
  | keyword hw => exact absurd (by decide) (mem_of_keyword hw _ inside).2
  | root hr => exact absurd inside (by rcases hr with rfl | rfl <;> decide)
  | path hr =>
    obtain ⟨rfl, behind⟩ := List.cons.inj ht
    cases cs with
    | nil =>
      have dotted : y = '.' :: _ := behind
      exact absurd (by rw [dotted]; rfl) point
    | cons d cs =>
      obtain ⟨rfl, _⟩ := List.cons.inj behind
      exact ⟨_, _, hr, rfl⟩
  | place index _ =>
    obtain ⟨_, rfl⟩ := List.cons.inj ht
    exact absurd (List.mem_append_right cs sharp) (sharp_not_mem_of_readIndex? index)

/-- A place that goes on is that of the only literal, so there is nothing but zeros behind it. The
place may be counted anew where there are more literals. -/
theorem LeafText.zeros_behind {table' : List Value} {x y z : List Char} {e' : Expression}
    (h : LeafText table z e) (whole : LeafText table' (x ++ y) e') (place : z.head? = some '#')
    (head : x.head? = z.head?) (few : table'.length ≤ (x ++ y).count '#')
    (more : table.length ≤ table'.length) (same : table'.length = table.length → x = z) :
    '#' ∉ y ∧ ∀ c ∈ y, c = '0' := by
  obtain ⟨ds, rfl⟩ := List.head?_eq_some_iff.mp place
  obtain ⟨ds', rfl⟩ := List.head?_eq_some_iff.mp (head.trans place)
  rw [List.cons_append] at whole few
  obtain ⟨i, v, index, found, _⟩ := h.of_sharp
  obtain ⟨k, u, index', found', _⟩ := whole.of_sharp
  have none := sharp_not_mem_of_readIndex? index'
  rw [List.count_cons_self, List.count_eq_zero.mpr none] at few
  have here := (List.getElem?_eq_some_iff.mp found).1
  have there := (List.getElem?_eq_some_iff.mp found').1
  have alone : table'.length = table.length := by omega
  obtain rfl : ds' = ds := (List.cons.inj (same alone)).2
  obtain rfl : k = 0 := by omega
  exact ⟨fun hmem => none (List.mem_append_right _ hmem),
    Text.eq_zero_of_readIndex?_append index index'⟩

end Heads

end DocumentPath.Filter
