import DocumentPath.Filter.Normal

namespace DocumentPath.Filter

/-- How an operator is written between or before its operands. -/
def token : Operator → List Char
  | .not => ['!']
  | .truthy => ['!', '!']
  | .or => ['|', '|']
  | .and => ['&', '&']
  | .looseEq => ['=', '=']
  | .strictEq => ['=', '=', '=']
  | .looseNe => ['!', '=']
  | .strictNe => ['!', '=', '=']
  | .lt => ['<']
  | .le => ['<', '=']
  | .gt => ['>']
  | .ge => ['>', '=']
  | .within => [wordMark]
  | .add => ['+']
  | .sub => ['-']
  | .mod => ['%']
  | .mul => ['*']
  | .div => ['/']
  | .pow => ['*', '*']

/-- The operators that may stand in a text, a longer one before each that it begins with. -/
def searchOrder : List Operator :=
  [.strictNe, .strictEq, .pow, .or, .and, .looseNe, .looseEq, .le, .ge, .lt, .gt, .add, .sub, .mul,
    .div, .mod, .not, .within]

/-- The longest operator at the front of a text. -/
def leading? (cs : List Char) : Option Operator :=
  searchOrder.find? fun op => (token op).isPrefixOf cs

/-- A piece of text: an operator, or a character that belongs to none. -/
inductive Lexeme
  | operator (op : Operator)
  | char (c : Char)
  deriving DecidableEq, Repr

def Lexeme.text : Lexeme → List Char
  | .operator op => token op
  | .char c => [c]

def Lexeme.operator? : Lexeme → Option Operator
  | .operator op => some op
  | .char _ => none

theorem token_ne_nil (op : Operator) : token op ≠ [] := by cases op <;> decide

theorem isOperatorChar_of_mem_token (op : Operator) : ∀ c ∈ token op, isOperatorChar c = true :=
  List.all_eq_true.mp (by cases op <;> rfl)

theorem prefix_of_leading? {cs : List Char} {op : Operator} (h : leading? cs = some op) :
    token op <+: cs := by
  simpa using List.find?_some h

/-- Cuts a text into its pieces from left to right. -/
def scan : List Char → List Lexeme
  | [] => []
  | c :: cs =>
    match leading? (c :: cs) with
    | some op => .operator op :: scan ((c :: cs).drop (token op).length)
    | none => .char c :: scan cs
termination_by cs => cs.length
decreasing_by
  · have := List.length_pos_iff.mpr (token_ne_nil op)
    simp only [List.length_drop, List.length_cons]
    omega
  · simp

def render (ls : List Lexeme) : List Char := ls.flatMap Lexeme.text

/-- The operators of a text, from left to right. -/
def operators (cs : List Char) : List Operator := (scan cs).filterMap Lexeme.operator?

theorem render_append (l m : List Lexeme) : render (l ++ m) = render l ++ render m := by
  simp [render]

theorem render_scan (cs : List Char) : render (scan cs) = cs := by
  fun_induction scan cs with
  | case1 => rfl
  | case2 c cs op h ih =>
    obtain ⟨rest, hr⟩ := prefix_of_leading? h
    rw [← hr] at ih ⊢
    rw [List.drop_left] at ih ⊢
    simpa [render, Lexeme.text] using ih
  | case3 c cs h ih => simpa [render, Lexeme.text] using ih

/-- No operator goes on over this character. -/
def Breaks (c : Char) : Prop := ∀ op ∈ searchOrder, c ∉ (token op).tail

theorem breaks_of_not_isOperatorChar {c : Char} (h : isOperatorChar c = false) : Breaks c := by
  intro op _ hc
  have := isOperatorChar_of_mem_token op c (List.mem_of_mem_tail hc)
  simp [h] at this

theorem breaks_not : Breaks '!' := by unfold Breaks; decide

private theorem isPrefixOf_append {t a s : List Char} {c : Char} (hc : c ∉ t) :
    t.isPrefixOf (a ++ c :: s) = t.isPrefixOf a := by
  induction a generalizing t with
  | nil =>
    cases t with
    | nil => rfl
    | cons y t => simp_all [List.isPrefixOf, Ne.symm]
  | cons x a ih =>
    cases t with
    | nil => rfl
    | cons y t => simp_all [List.isPrefixOf]

theorem leading?_append {x c : Char} {a s : List Char} (hc : Breaks c) :
    leading? (x :: a ++ c :: s) = leading? (x :: a) := by
  unfold leading?
  have key : ∀ op ∈ searchOrder,
      (token op).isPrefixOf (x :: a ++ c :: s) = (token op).isPrefixOf (x :: a) := by
    intro op hop
    have := hc op hop
    cases ht : token op with
    | nil => rfl
    | cons y t =>
      have hct : c ∉ t := by simpa [ht] using this
      simp only [List.cons_append, List.isPrefixOf, isPrefixOf_append hct]
  generalize searchOrder = ops at key
  induction ops with
  | nil => rfl
  | cons op ops ih =>
    rw [List.find?_cons, List.find?_cons, key op (by simp), ih fun o ho => key o (by simp [ho])]

theorem leading?_of_not_isOperatorChar {c : Char} {s : List Char} (h : isOperatorChar c = false) :
    leading? (c :: s) = none := by
  cases hl : leading? (c :: s) with
  | none => rfl
  | some op =>
    obtain ⟨r, hr⟩ := prefix_of_leading? hl
    cases ht : token op with
    | nil => exact absurd ht (token_ne_nil op)
    | cons y t =>
      rw [ht] at hr
      have := isOperatorChar_of_mem_token op y (by simp [ht])
      simp_all

theorem scan_append {c : Char} (hc : Breaks c) (a s : List Char) :
    scan (a ++ c :: s) = scan a ++ scan (c :: s) := by
  fun_induction scan a with
  | case1 => rfl
  | case2 x a op h ih =>
    rw [List.cons_append, scan, ← List.cons_append, leading?_append hc, h]
    obtain ⟨r, hr⟩ := prefix_of_leading? h
    rw [← hr, List.drop_left] at ih
    rw [← hr, List.append_assoc]
    simp only [List.drop_left, List.cons_append, ih]
  | case3 x a h ih =>
    rw [List.cons_append, scan, ← List.cons_append, leading?_append hc, h, ih]
    rfl

theorem scan_cons {c : Char} (h : isOperatorChar c = false) (s : List Char) :
    scan (c :: s) = .char c :: scan s := by
  rw [scan, leading?_of_not_isOperatorChar h]

theorem scan_word {w : List Char} (h : ∀ c ∈ w, isOperatorChar c = false) (s : List Char) :
    scan (w ++ s) = w.map .char ++ scan s := by
  induction w with
  | nil => rfl
  | cons c w ih =>
    rw [List.cons_append, scan_cons (h c (by simp)), ih fun d hd => h d (by simp [hd])]
    rfl

theorem operators_append {c : Char} (hc : Breaks c) (a s : List Char) :
    operators (a ++ c :: s) = operators a ++ operators (c :: s) := by
  simp [operators, scan_append hc]

theorem operators_word {w : List Char} (h : ∀ c ∈ w, isOperatorChar c = false) (s : List Char) :
    operators (w ++ s) = operators s := by
  simp [operators, scan_word h, List.filterMap_append, Function.comp_def, Lexeme.operator?]

/-- Text without operators parts the operators on both sides of it. -/
theorem operators_append_word {w : List Char} (hw : w ≠ [])
    (h : ∀ c ∈ w, isOperatorChar c = false) (a s : List Char) :
    operators (a ++ (w ++ s)) = operators a ++ operators s := by
  cases w with
  | nil => exact absurd rfl hw
  | cons c w =>
    rw [List.cons_append, operators_append (breaks_of_not_isOperatorChar (h c (by simp))),
      ← List.cons_append, operators_word h]

theorem leading?_token {op : Operator} (h : op ∈ searchOrder) : leading? (token op) = some op := by
  revert op
  decide

theorem operators_token {op : Operator} (h : op ∈ searchOrder) : operators (token op) = [op] := by
  have hl := leading?_token h
  cases ht : token op with
  | nil => exact absurd ht (token_ne_nil op)
  | cons c cs =>
    rw [ht] at hl
    have : (c :: cs).drop (token op).length = [] := by rw [ht]; simp
    rw [operators, scan, hl]
    simp only [this, scan]
    rfl

end DocumentPath.Filter
