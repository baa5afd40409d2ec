import DocumentPath.Filter.Object
import DocumentPath.Proofs.Json.Tokens

namespace DocumentPath.Json

open DocumentPath.Scanner

def Frame.isMembers : Frame → Bool
  | .items _ => false
  | .members _ _ => true

/-- How many arrays and objects are open. -/
def State.depth : State → Int
  | .value outer | .after outer _ => outer.length
  | .firstItem outer | .firstKey outer | .key outer _ | .colon outer _ _ => outer.length + 1

/-- How many objects are open. -/
def State.braces : State → Int
  | .value outer | .firstItem outer | .after outer _ => outer.countP Frame.isMembers
  | .firstKey outer | .key outer _ | .colon outer _ _ => outer.countP Frame.isMembers + 1

/-- Whether the outermost of some open arrays and objects is an object; `inner` tells it of the
innermost. -/
def outermost (inner : Bool) : List Frame → Bool
  | [] => inner
  | frame :: outer => outermost frame.isMembers outer

def outermost? : List Frame → Option Bool
  | [] => none
  | frame :: outer => some (outermost frame.isMembers outer)

def State.root? : State → Option Bool
  | .value outer | .after outer _ => outermost? outer
  | .firstItem outer => some (outermost false outer)
  | .firstKey outer | .key outer _ | .colon outer _ _ => some (outermost true outer)

theorem depth_beginValue {limit : Nat} {outer : List Frame} {t : Token} {s : State}
    (h : beginValue limit outer t = some s) :
    s.depth = outer.length + t.depth ∧
      s.braces = outer.countP Frame.isMembers + t.braces := by
  cases t <;> simp only [beginValue, reduceCtorEq] at h
  · split at h <;> cases h
    exact ⟨rfl, by simp [State.braces, Token.braces]⟩
  · split at h <;> cases h
    exact ⟨rfl, rfl⟩
  · cases h
    exact ⟨by simp [State.depth, Token.depth], by simp [State.braces, Token.braces]⟩

theorem depth_next {limit : Nat} {s s' : State} {t : Token} (h : s.next limit t = some s') :
    s'.depth = s.depth + t.depth ∧ s'.braces = s.braces + t.braces := by
  fun_cases State.next limit s t with
  | case1 outer => exact depth_beginValue h
  | case3 outer =>
    rw [State.next.eq_3 _ _ _ (by assumption)] at h
    exact depth_beginValue h
  | case12 =>
    rw [State.next.eq_12] at h
    · cases h
    all_goals assumption
  | _ =>
    cases h
    simp [State.depth, State.braces, Token.depth, Token.braces, List.countP_cons, Frame.isMembers]
    try omega

theorem depth_run {limit : Nat} {s s' : State} {ts : List Token}
    (h : ts.foldlM (State.next limit) s = some s') :
    s'.depth = s.depth + tally Token.depth ts ∧ s'.braces = s.braces + tally Token.braces ts := by
  induction ts generalizing s with
  | nil =>
    cases h
    simp [tally]
  | cons t ts ih =>
    rw [List.foldlM_cons] at h
    obtain ⟨next, hnext, h⟩ := Option.bind_eq_some_iff.mp h
    obtain ⟨depth, braces⟩ := depth_next hnext
    obtain ⟨depth', braces'⟩ := ih h
    rw [tally, tally]
    omega

theorem root?_beginValue {limit : Nat} {frame : Frame} {outer : List Frame} {t : Token} {s : State}
    (h : beginValue limit (frame :: outer) t = some s) :
    s.root? = some (outermost frame.isMembers outer) := by
  cases t <;> simp only [beginValue, reduceCtorEq] at h
  · split at h <;> cases h
    rfl
  · split at h <;> cases h
    rfl
  · cases h
    rfl

theorem root?_close {k inner : Bool} {outer : List Frame} {j : Json}
    (hk : outermost inner outer = k) (hj : j.isObject = inner) :
    (State.after outer j).root? = some k ∨ ∃ j', State.after outer j = .after [] j' ∧
      j'.isObject = k := by
  cases outer with
  | nil => exact .inr ⟨j, rfl, hj.trans hk⟩
  | cons frame outer => exact .inl (congrArg some hk)

/-- What is open outermost stays so until it is closed and is the document. -/
theorem root?_next {limit : Nat} {s s' : State} {t : Token} {k : Bool} (hk : s.root? = some k)
    (h : s.next limit t = some s') :
    s'.root? = some k ∨ ∃ j, s' = .after [] j ∧ j.isObject = k := by
  fun_cases State.next limit s t with
  | case1 outer =>
    cases outer with
    | nil => cases hk
    | cons frame outer => exact .inl ((root?_beginValue h).trans hk)
  | case2 outer =>
    cases h
    exact root?_close (Option.some.inj hk) rfl
  | case3 outer =>
    rw [State.next.eq_3 _ _ _ (by assumption)] at h
    exact .inl ((root?_beginValue h).trans hk)
  | case4 outer =>
    cases h
    exact root?_close (Option.some.inj hk) rfl
  | case9 =>
    cases h
    exact root?_close (Option.some.inj hk) rfl
  | case11 =>
    cases h
    exact root?_close (Option.some.inj hk) rfl
  | case12 =>
    rw [State.next.eq_12] at h
    · cases h
    all_goals assumption
  | _ =>
    cases h
    exact .inl hk

theorem run_after {limit : Nat} {j : Json} {s : State} {ts : List Token}
    (h : ts.foldlM (State.next limit) (.after [] j) = some s) : ts = [] ∧ s = .after [] j := by
  cases ts with
  | nil =>
    cases h
    exact ⟨rfl, rfl⟩
  | cons t ts =>
    have stop : State.next limit (.after [] j) t = none := by cases t <;> rfl
    rw [List.foldlM_cons, stop] at h
    cases h

theorem root?_run {limit : Nat} {s s' : State} {ts : List Token} {k : Bool}
    (hk : s.root? = some k) (h : ts.foldlM (State.next limit) s = some s') :
    s'.root? = some k ∨ ∃ j, s' = .after [] j ∧ j.isObject = k := by
  induction ts generalizing s with
  | nil =>
    cases h
    exact .inl hk
  | cons t ts ih =>
    rw [List.foldlM_cons] at h
    obtain ⟨next, hnext, h⟩ := Option.bind_eq_some_iff.mp h
    rcases root?_next hk hnext with hk | ⟨j, rfl, hj⟩
    · exact ih hk h
    · obtain ⟨rfl, rfl⟩ := run_after h
      exact .inr ⟨j, rfl, hj⟩

theorem outermost_braces {inner : Bool} {outer : List Frame} (h : outermost inner outer = true) :
    0 < outer.countP Frame.isMembers + inner.toNat := by
  induction outer generalizing inner with
  | nil =>
    cases h
    decide
  | cons frame outer ih =>
    have := ih h
    rw [List.countP_cons]
    cases hf : frame.isMembers with
    | false =>
      rw [hf, Bool.toNat_false] at this
      simp only [Bool.false_eq_true, if_false]
      omega
    | true =>
      simp only [if_true]
      omega

theorem braces_of_root? {s : State} (h : s.root? = some true) : 0 < s.braces := by
  have frames {outer : List Frame} (ho : outermost? outer = some true) :
      0 < (outer.countP Frame.isMembers : Int) := by
    cases outer with
    | nil => cases ho
    | cons frame outer =>
      have inside : outermost false (frame :: outer) = true := Option.some.inj ho
      have := outermost_braces inside
      simp only [Bool.toNat_false] at this
      omega
  cases s with
  | value outer => exact frames h
  | after outer j => exact frames h
  | firstItem outer =>
    have := outermost_braces (Option.some.inj h)
    simp only [Bool.toNat_false] at this
    rw [State.braces]
    omega
  | _ =>
    rw [State.braces]
    omega

theorem read?_eq_some_iff {limit : Nat} {cs : List Char} {j : Json} :
    read? limit cs = some j ↔ ∃ ts, tokens? (.word []) cs = some ts ∧
      ts.foldlM (State.next limit) (.value []) = some (.after [] j) := by
  rw [read?]
  cases tokens? (.word []) cs with
  | none => simp
  | some ts =>
    simp only [Option.bind_eq_bind, Option.bind_some, Option.some.injEq, exists_eq_left']
    cases ts.foldlM (State.next limit) (.value []) with
    | none => simp
    | some s =>
      simp only [Option.bind_some]
      split
      · simp
      · simp_all

theorem scan_document {limit : Nat} {cs : List Char} {j : Json} (h : read? limit cs = some j) :
    start.after cs = start ∧ braceExcess (start.outside cs) = 0 := by
  obtain ⟨ts, htokens, hrun⟩ := read?_eq_some_iff.mp h
  rw [← List.append_nil cs] at htokens
  obtain ⟨before, behind, rest, rfl, hend, scan⟩ := scan_tokens? htokens
  obtain ⟨depth, braces⟩ := depth_run hrun
  obtain ⟨after, outside⟩ := scan 0
  cases behind with
  | quoted read escaped => cases hend
  | word read =>
    obtain ⟨_, depth', braces', _⟩ := endWord?_scalar hend
    rw [tally_append, depth'] at depth
    rw [tally_append, braces'] at braces
    simp only [State.depth, State.braces, List.length_nil, List.countP_nil] at depth braces
    refine ⟨?_, ?_⟩
    · have level : 0 + tally Token.depth before = 0 := by omega
      rw [level] at after
      exact after
    · refine outside.trans ?_
      omega

theorem root?_first {limit : Nat} {t : Token} {s : State}
    (h : State.next limit (.value []) t = some s) :
    (∃ k, s.root? = some k) ∨ ∃ j, s = .after [] j := by
  rw [State.next] at h
  cases t <;> simp only [beginValue, reduceCtorEq] at h
  · split at h <;> cases h
    exact .inl ⟨_, rfl⟩
  · split at h <;> cases h
    exact .inl ⟨_, rfl⟩
  · cases h
    exact .inr ⟨_, rfl⟩

/-- While an object is read it is open, unless a scalar is the whole document. -/
theorem root?_of_scalar {limit : Nat} {before rest : List Token} {k j : Json} {s : State}
    (hs : before.foldlM (State.next limit) (.value []) = some s)
    (hrest : (Token.scalar k :: rest).foldlM (State.next limit) s = some (.after [] j))
    (hk : k.isObject = false) (hj : j.isObject = true) : s.root? = some true := by
  cases before with
  | nil =>
    cases hs
    obtain ⟨_, same⟩ := run_after
      (show rest.foldlM (State.next limit) (State.after [] k) = some (.after [] j) from hrest)
    cases same
    rw [hk] at hj
    cases hj
  | cons t before =>
    rw [List.foldlM_cons] at hs
    obtain ⟨first, hfirst, hs⟩ := Option.bind_eq_some_iff.mp hs
    have unfinished (i : Json) : s ≠ .after [] i := by
      rintro rfl
      exact absurd (run_after hrest).1 (List.cons_ne_nil _ _)
    rcases root?_first hfirst with ⟨b, hb⟩ | ⟨i, rfl⟩
    · rcases root?_run hb hs with hroot | ⟨i, hi, _⟩
      · rcases root?_run hroot hrest with hend | ⟨i, hi, object⟩
        · cases hend
        · cases hi
          rw [hroot, ← object, hj]
      · exact absurd hi (unfinished i)
    · exact absurd (run_after hs).2 (unfinished i)

/-- The braces of an object are open wherever it has a dot. -/
theorem braceExcess_object {limit : Nat} {u v : List Char} {j : Json}
    (h : read? limit (u ++ '.' :: v) = some j) (hj : j.isObject = true) :
    0 < braceExcess (start.outside u) := by
  obtain ⟨ts, htokens, hrun⟩ := read?_eq_some_iff.mp h
  obtain ⟨before, _, rest, rfl, hdot, scan⟩ := scan_tokens? htokens
  obtain ⟨k, rest, rfl, hk⟩ := exists_scalar_of_dot hdot
  rw [List.foldlM_append] at hrun
  obtain ⟨s, hs, hrest⟩ := Option.bind_eq_some_iff.mp hrun
  have opened := braces_of_root? (root?_of_scalar hs hrest hk hj)
  have braces := (depth_run hs).2
  have none_open : (State.value []).braces = 0 := rfl
  have scanned : braceExcess (start.outside u) = tally Token.braces before := (scan 0).2
  omega

end DocumentPath.Json

namespace DocumentPath

theorem Text.exists_trim (cs : List Char) : ∃ front back, (∀ c ∈ front, isBlank c = true) ∧
    (∀ c ∈ back, isBlank c = true) ∧ cs = front ++ (trim cs ++ back) := by
  have blank (ds : List Char) : ∀ c ∈ ds.takeWhile isBlank, isBlank c = true := fun c hc =>
    List.all_eq_true.mp List.all_takeWhile c hc
  refine ⟨cs.takeWhile isBlank, ((cs.dropWhile isBlank).reverse.takeWhile isBlank).reverse,
    blank cs, ?_, ?_⟩
  · intro c hc
    exact blank _ c (List.mem_reverse.mp hc)
  · rw [trim, ← List.reverse_append, List.takeWhile_append_dropWhile, List.reverse_reverse,
      List.takeWhile_append_dropWhile]

/-- Blanks around a document do not matter. -/
theorem Json.read?_trim {limit : Nat} {cs : List Char} {j : Json}
    (h : Json.read? limit cs = some j) : Json.read? limit (Text.trim cs) = some j := by
  obtain ⟨front, back, hfront, hback, hcs⟩ := Text.exists_trim cs
  obtain ⟨ts, htokens, hrun⟩ := Json.read?_eq_some_iff.mp h
  rw [hcs] at htokens
  have inner := Json.tokens?_append_blanks hback (Json.tokens?_blanks hfront htokens)
  exact Json.read?_eq_some_iff.mpr ⟨ts, inner, hrun⟩

theorem Expression.ofJsonText_of_read? {cs : List Char} {j : Json}
    (h : Json.read? Json.depthLimit cs = some j) :
    Expression.ofJsonText cs = (Expression.ofJson j).map some := by
  have trimmed := Json.read?_trim h
  have something : Text.trim cs ≠ [] := by
    intro empty
    rw [empty] at trimmed
    cases trimmed
  rw [Expression.ofJsonText]
  simp only [if_neg something, trimmed]

end DocumentPath
