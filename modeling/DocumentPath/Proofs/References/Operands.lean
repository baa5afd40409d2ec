import Mathlib.Data.List.Forall2
import DocumentPath.Proofs.References.Rewriting

namespace DocumentPath

namespace Expression

mutual

/-- The paths of all references, from left to right. -/
def references : Expression → List String
  | .element path | .context path => [path]
  | .literal _ => []
  | .call _ operands => operandReferences operands

def operandReferences : List Expression → List String
  | [] => []
  | e :: es => e.references ++ operandReferences es

end

def isCall : Expression → Bool
  | .call _ _ => true
  | _ => false

/-- A reference to the element or to the context. -/
def reference (root : Char) (path : String) : Expression :=
  if root = '@' then .element path else .context path

end Expression

namespace Filter

open Expression

theorem readCalls_forall₂ {table : List Value} {texts : List (List Char)} {es : List Expression}
    (h : readCalls table texts = .ok es) :
    List.Forall₂ (fun text e => readCall table text = .ok e) texts es := by
  induction texts generalizing es with
  | nil =>
    rw [readCalls] at h
    cases h
    exact .nil
  | cons text texts ih =>
    rw [readCalls] at h
    obtain ⟨e, first, h⟩ := exists_of_bind_ok h
    obtain ⟨rest, others, h⟩ := exists_of_bind_ok h
    cases h
    exact .cons first (ih others)

/-- The characters of numbers. -/
theorem mem_of_isNumber {cs : List Char} (h : isNumber cs = true) :
    ∀ c ∈ cs, c.isDigit = true ∨ c = '.' ∨ c = '-' := by
  have unsigned {ds : List Char}
      (hd : ds.dropWhile Char.isDigit = [] ∨ ((ds.dropWhile Char.isDigit).head? = some '.' ∧
        ((ds.dropWhile Char.isDigit).drop 1).all Char.isDigit = true)) :
      ∀ c ∈ ds, c.isDigit = true ∨ c = '.' := by
    intro c hc
    rw [← List.takeWhile_append_dropWhile (p := Char.isDigit) (l := ds)] at hc
    rcases List.mem_append.mp hc with hc | hc
    · exact .inl (List.all_eq_true.mp List.all_takeWhile c hc)
    · rcases hd with none | ⟨point, places⟩
      · simp [none] at hc
      · cases ht : ds.dropWhile Char.isDigit with
        | nil => simp [ht] at hc
        | cons d tail =>
          rw [ht] at hc point places
          cases point
          rcases List.mem_cons.mp hc with rfl | hc
          · exact .inr rfl
          · exact .inl (List.all_eq_true.mp places c hc)
  rw [isNumber] at h
  simp only [Bool.and_eq_true, Bool.or_eq_true, decide_eq_true_eq] at h
  obtain ⟨_, tail⟩ := h
  have plain := unsigned (tail.imp id fun t => ⟨t.1.1, t.2⟩)
  split at plain
  · cases cs with
    | nil => simp
    | cons c cs =>
      rename_i sign
      cases sign
      exact List.forall_mem_cons.mpr ⟨.inr (.inr rfl), fun c hc => (plain c hc).imp_right .inl⟩
  · exact fun c hc => (plain c hc).imp_right .inl

theorem not_mem_of_isNumber {cs : List Char} (h : isNumber cs = true) {c : Char}
    (digit : c.isDigit = false) (point : c ≠ '.') (minus : c ≠ '-') : c ∉ cs := by
  intro hc
  rcases mem_of_isNumber h c hc with hd | hd | hd
  · rw [digit] at hd
    cases hd
  · exact point hd
  · exact minus hd

theorem no_parens_of_isNumber {cs : List Char} (h : isNumber cs = true) :
    ∀ c ∈ cs, c ≠ '(' ∧ c ≠ ')' := by
  intro c hc
  constructor
  · rintro rfl
    exact not_mem_of_isNumber h (by decide) (by decide) (by decide) hc
  · rintro rfl
    exact not_mem_of_isNumber h (by decide) (by decide) (by decide) hc

theorem readLeaf?_reference {root : Char} (hr : root = '@' ∨ root = '$') (table : List Value)
    (q : List Char) : readLeaf? table (root :: '.' :: q) = some (reference root (String.ofList q)) := by
  rcases hr with rfl | rfl <;> rfl

theorem readLeaf?_references {table : List Value} {text : List Char} {e : Expression}
    (h : readLeaf? table text = some e) :
    e.isCall = false ∧ ∀ p ∈ e.references, p.toList <:+: text := by
  unfold readLeaf? at h
  split at h
  · cases h
    exact ⟨rfl, List.forall_mem_singleton.mpr (List.nil_infix)⟩
  · cases h
    exact ⟨rfl, List.forall_mem_singleton.mpr (List.nil_infix)⟩
  · cases h
    refine ⟨rfl, List.forall_mem_singleton.mpr ?_⟩
    rw [String.toList_ofList]
    exact ⟨['@', '.'], [], by simp⟩
  · cases h
    refine ⟨rfl, List.forall_mem_singleton.mpr ?_⟩
    rw [String.toList_ofList]
    exact ⟨['$', '.'], [], by simp⟩
  · obtain ⟨i, _, h⟩ := Option.bind_eq_some_iff.mp h
    obtain ⟨v, _, h⟩ := Option.bind_eq_some_iff.mp h
    cases h
    exact ⟨rfl, List.forall_mem_nil _⟩
  · split at h
    · cases h
      exact ⟨rfl, List.forall_mem_nil _⟩
    split at h
    · cases h
      exact ⟨rfl, List.forall_mem_nil _⟩
    split at h
    · cases h
      exact ⟨rfl, List.forall_mem_nil _⟩
    · cases h

theorem eq_callText {text : List Char} {op : Operator} (opening : '(' ∈ text)
    (last : ((text.dropWhile (· ≠ '(')).drop 1).getLast? = some ')')
    (name : Operator.ofName? (String.ofList (text.takeWhile (· ≠ '('))) = some op) :
    text = callText op ((text.dropWhile (· ≠ '(')).drop 1).dropLast := by
  have head : op.name.toList = text.takeWhile (· ≠ '(') := by
    have same : op.name = String.ofList (text.takeWhile (· ≠ '(')) := by
      simpa using List.find?_some name
    rw [same, String.toList_ofList]
  obtain ⟨inner, hinner⟩ := List.getLast?_eq_some_iff.mp last
  rw [callText, head, hinner, List.dropLast_concat]
  conv => lhs; rw [← List.takeWhile_append_dropWhile (p := fun c => decide (c ≠ '(')) (l := text)]
  congr 1
  cases hd : text.dropWhile (fun c => decide (c ≠ '(')) with
  | nil =>
    have := List.dropWhile_eq_nil_iff.mp hd '(' opening
    simp at this
  | cons c cs =>
    have first := List.head?_dropWhile_not (fun c => decide (c ≠ '(')) text
    rw [hd] at first hinner
    have paren : c = '(' := by simpa using first
    rw [paren]
    exact congrArg ('(' :: ·) hinner

/-- A text is read as a number, as a call of the operator that it begins with, or as a leaf. -/
theorem readCall_cases {table : List Value} {text : List Char} {e : Expression}
    (h : readCall table text = .ok e) :
    (isNumber text = true ∧ ∃ v, readNumber? text = some v ∧ e = .literal v) ∨
    (∃ op inner es, text = callText op inner ∧
      readCalls table (splitOperands 0 inner) = .ok es ∧ e = .call op es) ∨
    ('(' ∉ text ∧ readLeaf? table text = some e) := by
  rw [readCall] at h
  split at h
  · rename_i number
    split at h <;> cases h
    exact .inl ⟨number, _, by assumption, rfl⟩
  split at h
  · rename_i opening
    simp only at h
    split at h
    · rename_i last
      split at h
      · cases h
      · rename_i op name
        refine .inr (.inl ⟨op, ((text.dropWhile (· ≠ '(')).drop 1).dropLast, ?_⟩)
        obtain ⟨es, read, h⟩ := exists_of_bind_ok h
        split at h
        · cases h
          exact ⟨es, eq_callText opening last name, read, rfl⟩
        · cases h
    · cases h
  · rename_i flat
    split at h <;> cases h
    exact .inr (.inr ⟨flat, by assumption⟩)

/-- A text behind so many open parentheses, parted at its commas outside parentheses. -/
structure Parted (d : Int) (cs q : List Char) (qs : List (List Char)) : Prop where
  split : splitOperands d cs = q :: qs
  joined : cs = q ++ qs.flatMap (',' :: ·)
  depths : d + depth cs = 0 → d + depth q = 0 ∧ ∀ r ∈ qs, depth r = 0
  first : d = 0 → (∀ c ∈ q, c ≠ '(' ∧ c ≠ ')') → ',' ∉ q
  others : ∀ r ∈ qs, (∀ c ∈ r, c ≠ '(' ∧ c ≠ ')') → ',' ∉ r

theorem depth_singleton (d : Int) (c : Char) :
    (if c = '(' then d + 1 else if c = ')' then d - 1 else d) = d + depth [c] := by
  split_ifs with h1 h2
  · rw [h1]
    rfl
  · rw [h2]
    rfl
  · rw [depth_of_no_parens (List.forall_mem_singleton.mpr ⟨h1, h2⟩), Int.add_zero]

theorem parted_nil (d : Int) : Parted d [] [] [] where
  split := rfl
  joined := rfl
  depths := fun h => ⟨h, List.forall_mem_nil _⟩
  first := fun _ _ => List.not_mem_nil
  others := List.forall_mem_nil _

theorem Parted.comma {cs q : List Char} {qs : List (List Char)} (h : Parted 0 cs q qs) :
    Parted 0 (',' :: cs) [] (q :: qs) where
  split := by rw [splitOperands, if_pos ⟨rfl, rfl⟩, h.split]
  joined := by simp [h.joined]
  depths := by
    intro total
    have flat : depth [','] = 0 := rfl
    rw [depth_cons] at total
    obtain ⟨here, rest⟩ := h.depths (by omega)
    exact ⟨rfl, List.forall_mem_cons.mpr ⟨by omega, rest⟩⟩
  first := fun _ _ => List.not_mem_nil
  others := List.forall_mem_cons.mpr ⟨h.first rfl, h.others⟩

theorem Parted.char {d : Int} {c : Char} {cs q : List Char} {qs : List (List Char)}
    (other : ¬(c = ',' ∧ d = 0)) (h : Parted (d + depth [c]) cs q qs) :
    Parted d (c :: cs) (c :: q) qs where
  split := by
    rw [splitOperands, if_neg other]
    simp only
    rw [depth_singleton, h.split]
    rfl
  joined := by rw [List.cons_append, ← h.joined]
  depths := by
    intro total
    rw [depth_cons] at total ⊢
    obtain ⟨here, rest⟩ := h.depths (by omega)
    exact ⟨by omega, rest⟩
  first := by
    intro zero plain hmem
    obtain ⟨here, rest⟩ := List.forall_mem_cons.mp plain
    have flat : depth [c] = 0 := depth_of_no_parens (List.forall_mem_singleton.mpr here)
    rcases List.mem_cons.mp hmem with hc | hmem
    · exact other ⟨hc.symm, zero⟩
    · exact h.first (by omega) rest hmem
  others := h.others

theorem exists_parted (d : Int) (cs : List Char) : ∃ q qs, Parted d cs q qs := by
  induction cs generalizing d with
  | nil => exact ⟨[], [], parted_nil d⟩
  | cons c cs ih =>
    by_cases comma : c = ',' ∧ d = 0
    · obtain ⟨rfl, rfl⟩ := comma
      obtain ⟨q, qs, parted⟩ := ih 0
      exact ⟨[], q :: qs, parted.comma⟩
    · obtain ⟨q, qs, parted⟩ := ih (d + depth [c])
      exact ⟨c :: q, qs, parted.char comma⟩

theorem nested_flatMap {qs : List (List Char)} (h : ∀ r ∈ qs, Nested r) :
    Nested (qs.flatMap (',' :: ·)) := by
  induction qs with
  | nil => exact nested_nil
  | cons r rs ih =>
    obtain ⟨first, rest⟩ := List.forall_mem_cons.mp h
    exact (nested_comma.append first).append (ih rest)

/-- What a text without an open parenthesis is parted into. -/
theorem splitOperands_closed {cs : List Char} (h : depth cs = 0) :
    (∀ piece ∈ splitOperands 0 cs, depth piece = 0 ∧ piece <:+: cs ∧
      ((∀ c ∈ piece, c ≠ '(' ∧ c ≠ ')') → ',' ∉ piece)) ∧
    ((∀ piece ∈ splitOperands 0 cs, Nested piece) → Nested cs) := by
  obtain ⟨q, qs, parted⟩ := exists_parted 0 cs
  obtain ⟨hq, hqs⟩ := parted.depths (by omega)
  rw [parted.split]
  constructor
  · refine List.forall_mem_cons.mpr ⟨⟨by omega, ⟨[], _, parted.joined.symm⟩, parted.first rfl⟩, ?_⟩
    intro r hr
    refine ⟨hqs r hr, ?_, parted.others r hr⟩
    obtain ⟨before, after, rfl⟩ := List.append_of_mem hr
    rw [parted.joined, List.flatMap_append, List.flatMap_cons]
    refine ⟨q ++ before.flatMap (',' :: ·) ++ [','], after.flatMap (',' :: ·), ?_⟩
    simp
  · intro nested
    obtain ⟨hq, hqs⟩ := List.forall_mem_cons.mp nested
    rw [parted.joined]
    exact hq.append (nested_flatMap hqs)

theorem depth_callText (op : Operator) (inner : List Char) :
    depth (callText op inner) = depth inner := by
  have closing : depth [')'] = -1 := rfl
  rw [callText, depth_append, (nested_name op).closed, depth_opening, depth_append, closing]
  omega

theorem no_parens_of_depth {cs : List Char} (h : depth cs = 0) (opening : '(' ∉ cs) :
    ∀ c ∈ cs, c ≠ '(' ∧ c ≠ ')' := by
  have none : cs.count '(' = 0 := List.count_eq_zero.mpr opening
  have closing : cs.count ')' = 0 := by
    rw [depth, none] at h
    omega
  intro c hc
  refine ⟨fun he => opening (he ▸ hc), fun he => List.count_eq_zero.mp closing (he ▸ hc)⟩

/-- What holds of numbers, of leaves, and of a call where it holds of its operands, holds of all that
is read from a text whose parentheses are even. -/
theorem readCall_induction {table : List Value} {motive : List Char → Expression → Prop}
    (number : ∀ {text v}, isNumber text = true → readNumber? text = some v →
      motive text (.literal v))
    (leaf : ∀ {text e}, (∀ c ∈ text, c ≠ '(' ∧ c ≠ ')') → readLeaf? table text = some e →
      motive text e)
    (call : ∀ {op inner es}, depth inner = 0 → List.Forall₂ motive (splitOperands 0 inner) es →
      motive (callText op inner) (.call op es))
    {text : List Char} {e : Expression} (h : readCall table text = .ok e) (hd : depth text = 0) :
    motive text e := by
  -- on the length of the text, since the operands of a call are parts of it
  induction hn : text.length using Nat.strong_induction_on generalizing text e with
  | _ n ih =>
    rcases readCall_cases h with
      ⟨isNumber, v, read, rfl⟩ | ⟨op, inner, es, rfl, hes, rfl⟩ | ⟨opening, read⟩
    · exact number isNumber read
    · rw [depth_callText] at hd
      have both := (List.forall₂_and_left _ _).mpr
        ⟨(splitOperands_closed hd).1, readCalls_forall₂ hes⟩
      refine call hd (both.imp fun piece e he => ?_)
      obtain ⟨⟨flat, part, _⟩, read⟩ := he
      have shorter : piece.length < n := by
        have := part.length_le
        rw [← hn]
        simp only [callText, List.length_append, List.length_cons, List.length_nil]
        omega
      exact ih piece.length shorter read flat rfl
    · exact leaf (no_parens_of_depth hd opening) read

/-- The references in an expression are parts of the text that it was read from. They have no
parentheses, and below a call no commas. -/
structure Confined (text : List Char) (e : Expression) : Prop where
  nested : Nested text
  plain : e.isCall = false → ∀ c ∈ text, c ≠ '(' ∧ c ≠ ')'
  inside : ∀ p ∈ e.references, p.toList <:+: text
  flat : ∀ p ∈ e.references, ∀ c ∈ p.toList, c ≠ '(' ∧ c ≠ ')'
  noComma : e.isCall = true ∨ ',' ∉ text → ∀ p ∈ e.references, ',' ∉ p.toList

theorem confined_leaf {text : List Char} {e : Expression} (call : e.isCall = false)
    (plain : ∀ c ∈ text, c ≠ '(' ∧ c ≠ ')') (inside : ∀ p ∈ e.references, p.toList <:+: text) :
    Confined text e where
  nested := nested_of_no_parens plain
  plain := fun _ => plain
  inside := inside
  flat := fun p hp c hc => plain c ((inside p hp).subset hc)
  noComma := by
    rintro (h | h) p hp hc
    · rw [call] at h
      cases h
    · exact h ((inside p hp).subset hc)

theorem confined_operands {texts : List (List Char)} {es : List Expression} {inner : List Char}
    (h : List.Forall₂ Confined texts es) (inside : ∀ text ∈ texts, text <:+: inner)
    (comma : ∀ text ∈ texts, (∀ c ∈ text, c ≠ '(' ∧ c ≠ ')') → ',' ∉ text) :
    ∀ p ∈ operandReferences es,
      p.toList <:+: inner ∧ (∀ c ∈ p.toList, c ≠ '(' ∧ c ≠ ')') ∧ ',' ∉ p.toList := by
  induction h with
  | nil => simp [operandReferences]
  | @cons text e texts es first _ ih =>
    obtain ⟨here, insides⟩ := List.forall_mem_cons.mp inside
    obtain ⟨alone, commas⟩ := List.forall_mem_cons.mp comma
    rw [operandReferences, List.forall_mem_append]
    refine ⟨fun p hp => ⟨(first.inside p hp).trans here, first.flat p hp, ?_⟩, ih insides commas⟩
    cases call : e.isCall with
    | true => exact first.noComma (.inl call) p hp
    | false => exact first.noComma (.inr (alone (first.plain call))) p hp

/-- The references below a call lie between its parentheses. -/
theorem confined_call {inner : List Char} {es : List Expression} (hd : depth inner = 0)
    (operands : List.Forall₂ Confined (splitOperands 0 inner) es) :
    Nested inner ∧ ∀ p ∈ operandReferences es,
      p.toList <:+: inner ∧ (∀ c ∈ p.toList, c ≠ '(' ∧ c ≠ ')') ∧ ',' ∉ p.toList := by
  obtain ⟨pieces, joined⟩ := splitOperands_closed hd
  have nested : ∀ piece ∈ splitOperands 0 inner, Nested piece :=
    ((List.forall₂_and_left _ _).mp (operands.imp fun _ _ he => ⟨he.nested, he⟩)).1
  exact ⟨joined nested, confined_operands operands (fun piece hp => (pieces piece hp).2.1)
    fun piece hp => (pieces piece hp).2.2⟩

/-- Whatever is read from a text whose parentheses are even is confined to it, and its parentheses
are nested. -/
theorem confined_of_readCall {table : List Value} {text : List Char} {e : Expression}
    (h : readCall table text = .ok e) (hd : depth text = 0) : Confined text e := by
  refine readCall_induction (motive := Confined) ?_ ?_ ?_ h hd
  · intro text v number _
    exact confined_leaf rfl (no_parens_of_isNumber number) (List.forall_mem_nil _)
  · intro text e plain leaf
    obtain ⟨call, inside⟩ := readLeaf?_references leaf
    exact confined_leaf call plain inside
  · intro op inner es flat operands
    obtain ⟨nested, refs⟩ := confined_call flat operands
    have part : inner <:+: callText op inner := ⟨op.name.toList ++ ['('], [')'], by simp [callText]⟩
    exact {
      nested := (nested_name op).append nested.parens
      plain := fun call => Bool.noConfusion call
      inside := fun p hp => (refs p hp).1.trans part
      flat := fun p hp => (refs p hp).2.1
      noComma := fun _ p hp => (refs p hp).2.2 }

/-- Between the parentheses of a call there are only characters of operands. -/
theorem Sealed.isOperandChar {op : Operator} {inner : List Char} (h : Sealed (callText op inner))
    (hi : Nested inner) : ∀ c ∈ inner, isOperandChar c = true := by
  intro c hc
  cases ho : Filter.isOperandChar c with
  | true => rfl
  | false =>
    obtain ⟨u, v, rfl⟩ := List.append_of_mem hc
    have parts : callText op (u ++ c :: v) =
        (op.name.toList ++ '(' :: u) ++ c :: (v ++ [')']) := by simp [callText]
    rw [parts] at h
    have closed := (h.split ho).1.nested.closed
    have := hi.opened u (c :: v) rfl
    rw [depth_append, (nested_name op).closed, depth_opening] at closed
    omega

theorem confined_of_readCalls {table : List Value} {inner : List Char} {es : List Expression}
    (hd : depth inner = 0) (h : readCalls table (splitOperands 0 inner) = .ok es) :
    List.Forall₂ Confined (splitOperands 0 inner) es := by
  have both := (List.forall₂_and_left _ _).mpr ⟨(splitOperands_closed hd).1, readCalls_forall₂ h⟩
  exact both.imp fun piece e he => confined_of_readCall he.2 he.1.1

end Filter

end DocumentPath
