import DocumentPath.Path.Outline

namespace DocumentPath

namespace Scanner

/-- The state between strings inside so many brackets. -/
def between (depth : Int) : Scanner := ⟨none, false, depth⟩

/-- The state inside a string, perhaps behind a backslash. -/
def inside (quote : Char) (escaped : Bool) (depth : Int) : Scanner := ⟨some quote, escaped, depth⟩

theorem isOutside_inside (quote : Char) (escaped : Bool) (depth : Int) (c : Char) :
    (inside quote escaped depth).isOutside c = false := by
  simp [isOutside, inside]

/-- The characters of a text that stand outside its strings. -/
def outside (s : Scanner) (cs : List Char) : List Char := ((s.marks cs).filter Prod.snd).map Prod.fst

theorem after_cons (s : Scanner) (c : Char) (cs : List Char) :
    s.after (c :: cs) = (s.next c).after cs := rfl

theorem after_append (s : Scanner) (cs ds : List Char) :
    s.after (cs ++ ds) = (s.after cs).after ds := List.foldl_append

theorem outside_cons (s : Scanner) (c : Char) (cs : List Char) :
    s.outside (c :: cs) = (if s.isOutside c then [c] else []) ++ (s.next c).outside cs := by
  cases h : s.isOutside c <;> simp [outside, marks, h]

theorem outside_append (s : Scanner) (cs ds : List Char) :
    s.outside (cs ++ ds) = s.outside cs ++ (s.after cs).outside ds := by
  simp [outside, marks_append]

theorem mem_outside {s : Scanner} {cs : List Char} {m : Char × Bool} (h : m ∈ s.marks cs)
    (ho : m.2 = true) : m.1 ∈ s.outside cs :=
  List.mem_map_of_mem (List.mem_filter.mpr ⟨h, ho⟩)

/-- Neither a bracket nor the beginning of a string inside brackets. -/
def isPlain (c : Char) : Bool := c ∉ ['"', '\'', '[', ']', '(', ')', '\x7b', '\x7d']

theorem not_mem_of_class {p : Char → Bool} {c : Char} {ds : List Char}
    (h : (ds.all fun d => !p d) = true) (hc : p c = true) : c ∉ ds := by
  intro hmem
  have other := List.all_eq_true.mp h c hmem
  rw [hc] at other
  cases other

/-- A character that is neither a bracket nor begins a string changes nothing. -/
theorem next_between {c : Char} {depth : Int} (h : isPlain c = true ∨ c = '\'' ∧ depth ≤ 0) :
    (between depth).next c = between depth := by
  rcases h with h | ⟨rfl, hd⟩
  · have plain : c ≠ '"' ∧ c ≠ '\'' ∧ c ≠ '[' ∧ c ≠ ']' ∧ c ≠ '(' ∧ c ≠ ')' ∧ c ≠ '\x7b' ∧
        c ≠ '\x7d' := by simpa [isPlain] using h
    simp [between, next, plain]
  · have : ¬0 < depth := by omega
    simp [between, next, this]

theorem isOutside_between {c : Char} {depth : Int}
    (h : (between depth).next c = between depth) : (between depth).isOutside c = true := by
  rw [isOutside, h]
  rfl

/-- The text leads from one depth to another, and the characters outside its strings are of one
kind. -/
def Crosses (P : Char → Prop) (d e : Int) (cs : List Char) : Prop :=
  (between d).after cs = between e ∧ ∀ c ∈ (between d).outside cs, P c

variable {P : Char → Prop} {d e f : Int}

theorem Crosses.append {cs ds : List Char} (h : Crosses P d e cs) (h' : Crosses P e f ds) :
    Crosses P d f (cs ++ ds) := by
  refine ⟨by rw [after_append, h.1, h'.1], ?_⟩
  intro c hc
  rw [outside_append, h.1] at hc
  exact (List.mem_append.mp hc).elim (h.2 c) (h'.2 c)

theorem crosses_nil (P : Char → Prop) (d : Int) : Crosses P d d [] := ⟨rfl, by simp [outside, marks]⟩

theorem crosses_char {c : Char} (hc : (between d).next c = between e) (h : P c) :
    Crosses P d e [c] := by
  refine ⟨hc, ?_⟩
  intro x hx
  rw [outside_cons] at hx
  split at hx
  · cases List.mem_singleton.mp hx
    exact h
  · cases hx

theorem crosses_of_plain {cs : List Char} (h : ∀ c ∈ cs, isPlain c = true ∨ c = '\'' ∧ d ≤ 0)
    (hP : ∀ c ∈ cs, P c) : Crosses P d d cs := by
  induction cs with
  | nil => exact crosses_nil P d
  | cons c cs ih =>
    have first : Crosses P d d [c] := crosses_char (next_between (h c (by simp))) (hP c (by simp))
    exact first.append (ih (fun x hx => h x (by simp [hx])) fun x hx => hP x (by simp [hx]))

end Scanner

open Scanner

/-- Parts a text that follows another one at the dots outside strings. -/
def splitFrom (s : Scanner) (cs : List Char) : List (List Char) :=
  ((s.marks cs).splitOnP fun m => m.1 == '.' && m.2).map (·.map Prod.fst)

theorem splitFrom_dot {s : Scanner} (h : s.isOutside '.' = true) (cs : List Char) :
    splitFrom s ('.' :: cs) = [] :: splitFrom (s.next '.') cs := by
  rw [splitFrom, marks, List.splitOnP_cons_eq_if_modifyHead, if_pos (by simpa using h)]
  rfl

theorem splitFrom_cons {s : Scanner} {c : Char} (h : ¬(c = '.' ∧ s.isOutside c = true))
    (cs : List Char) : splitFrom s (c :: cs) = (splitFrom (s.next c) cs).modifyHead (c :: ·) := by
  rw [splitFrom, marks, List.splitOnP_cons_eq_if_modifyHead, if_neg (by simpa using h), splitFrom]
  cases ((s.next c).marks cs).splitOnP fun m => m.1 == '.' && m.2 <;> rfl

theorem splitFrom_eq_cons (s : Scanner) (cs : List Char) : ∃ q qs, splitFrom s cs = q :: qs := by
  cases h : splitFrom s cs with
  | nil => exact absurd (List.map_eq_nil_iff.mp h) (List.splitOnP_ne_nil _ _)
  | cons q qs => exact ⟨q, qs, rfl⟩

/-- A text without a dot outside its strings is not parted. -/
theorem splitOutside_of_no_dot {cs : List Char} (h : ∀ c ∈ start.outside cs, c ≠ '.') :
    splitOutside '.' cs = [cs] := by
  have whole : (start.marks cs).splitOnP (fun m => m.1 == '.' && m.2) = [start.marks cs] := by
    apply List.splitOnP_eq_singleton
    rintro ⟨c, mark⟩ hm
    cases mark with
    | false => simp
    | true => simpa using h c (mem_outside hm rfl)
  rw [splitOutside, whole, List.map_singleton, map_fst_marks]

/-- A dot behind a text that ends between strings parts it from what follows. -/
theorem splitOutside_append {cs : List Char} (h : start.after cs = start) (ds : List Char) :
    splitOutside '.' (cs ++ '.' :: ds) = splitOutside '.' cs ++ splitOutside '.' ds := by
  rw [splitOutside, marks_append, h]
  show ((start.marks cs ++ ('.', true) :: start.marks ds).splitOnP _).map _ = _
  rw [List.splitOnP_append_cons _ _ (by rfl), List.map_append]
  rfl

theorem splitOutside_intercalate {pieces : List (List Char)} (hne : pieces ≠ [])
    (h : ∀ piece ∈ pieces, start.after piece = start) :
    splitOutside '.' (['.'].intercalate pieces) = pieces.flatMap (splitOutside '.') := by
  induction pieces with
  | nil => exact absurd rfl hne
  | cons piece pieces ih =>
    obtain ⟨first, others⟩ := List.forall_mem_cons.mp h
    cases pieces with
    | nil => simp
    | cons next pieces =>
      have rest := ih (List.cons_ne_nil _ _) others
      rw [List.intercalate_cons_cons, List.append_assoc, List.singleton_append,
        splitOutside_append first, rest]
      rfl

theorem excess_eq (opening closing : Char) (cs : List Char) :
    excess opening closing cs =
      ((start.outside cs).count opening : Int) - (start.outside cs).count closing := rfl

/-- A bracket of the text is open before each of its dots that stands outside its strings. -/
def OpenAtDots (opening closing : Char) (cs : List Char) : Prop :=
  ∀ u v, cs = u ++ '.' :: v → (start.after u).isOutside '.' = true → 0 < excess opening closing u

/-- A text whose brackets are still open before each of its dots is put together from its parts
again. -/
theorem joinFilter_splitFrom {opening closing : Char} {whole : List Char}
    (balanced : isBalanced opening closing whole = true)
    (isOpen : OpenAtDots opening closing whole) (path : List Char)
    (more : List (List Char)) {front behind q : List Char} {qs : List (List Char)}
    (hw : whole = front ++ behind) (hs : splitFrom (start.after front) behind = q :: qs) :
    ∃ h, Outline.joinFilter opening closing path (front ++ q) (qs ++ more) =
      .ok (whole, ⟨more, h⟩) := by
  induction behind generalizing front q qs with
  | nil =>
    obtain ⟨rfl, rfl⟩ : [] = q ∧ [] = qs := List.cons.inj hs
    rw [List.append_nil] at hw
    subst hw
    refine ⟨Nat.le_refl _, ?_⟩
    rw [List.append_nil]
    show Outline.joinFilter opening closing path whole more = _
    cases more with
    | nil => rw [Outline.joinFilter, if_pos balanced]
    | cons piece pieces => rw [Outline.joinFilter, if_pos balanced]
  | cons c behind ih =>
    have hw' : whole = (front ++ [c]) ++ behind := by rw [hw, List.append_assoc]; rfl
    have hafter : start.after (front ++ [c]) = (start.after front).next c := after_append _ _ _
    obtain ⟨r, rs, hr⟩ := splitFrom_eq_cons ((start.after front).next c) behind
    have hr' := hr
    rw [← hafter] at hr'
    obtain ⟨hle, joined⟩ := ih hw' hr'
    by_cases dot : c = '.' ∧ (start.after front).isOutside c = true
    · obtain ⟨rfl, out⟩ := dot
      rw [splitFrom_dot out, hr] at hs
      cases hs
      have more_open : isBalanced opening closing front = false := by
        have := isOpen front behind hw out
        have : ¬excess opening closing front ≤ 0 := by omega
        simp [isBalanced, this]
      rw [List.append_assoc, List.singleton_append] at joined
      refine ⟨Nat.le_succ_of_le hle, ?_⟩
      rw [List.append_nil]
      show Outline.joinFilter opening closing path front (r :: (rs ++ more)) = _
      rw [Outline.joinFilter, if_neg (by simp [more_open]), joined]
      rfl
    · rw [splitFrom_cons dot, hr] at hs
      cases hs
      rw [List.append_assoc] at joined
      exact ⟨hle, joined⟩

theorem openAtDots_of_no_dot (opening closing : Char) {cs : List Char} (h : '.' ∉ cs) :
    OpenAtDots opening closing cs := fun u _ hu _ =>
  absurd (hu ▸ List.mem_append_right u (List.mem_cons_self ..)) h

/-- A filter in a path is read from its first piece and as many pieces after it as it has. -/
theorem joinFilter_splitOutside {opening closing : Char} {cs : List Char}
    (balanced : isBalanced opening closing cs = true) (isOpen : OpenAtDots opening closing cs)
    (path : List Char) (more : List (List Char)) :
    ∃ q qs h, splitOutside '.' cs = q :: qs ∧
      Outline.joinFilter opening closing path q (qs ++ more) = .ok (cs, ⟨more, h⟩) := by
  obtain ⟨q, qs, hs⟩ := splitFrom_eq_cons start cs
  obtain ⟨h, joined⟩ := joinFilter_splitFrom balanced isOpen path more (List.nil_append cs).symm hs
  exact ⟨q, qs, h, hs, joined⟩

/-- The first part of a text begins as the text does, unless that is with a dot. -/
theorem splitOutside_cons {c : Char} (h : c ≠ '.') (cs : List Char) :
    ∃ q qs, splitOutside '.' (c :: cs) = (c :: q) :: qs := by
  obtain ⟨q, qs, hs⟩ := splitFrom_eq_cons (start.next c) cs
  refine ⟨q, qs, ?_⟩
  show splitFrom start (c :: cs) = _
  rw [splitFrom_cons (by simp [h]), hs]
  rfl

end DocumentPath
