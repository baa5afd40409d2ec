namespace DocumentPath.Members

/-- Puts a new key in front of the first greater one. -/
def insert {α : Type} (key : String) (v : α) : List (String × α) → List (String × α)
  | [] => [(key, v)]
  | m :: ms => if key < m.1 then (key, v) :: m :: ms else m :: insert key v ms

/-- Gives the first member of that key a new value. -/
def replace {α : Type} (key : String) (v : α) : List (String × α) → List (String × α)
  | [] => []
  | m :: ms => if key = m.1 then (key, v) :: ms else m :: replace key v ms

/-- Gives a key its value. A present key keeps its place, a new one goes where order wants it, so
sorted members stay sorted. -/
def set {α : Type} (key : String) (v : α) (ms : List (String × α)) : List (String × α) :=
  if (ms.lookup key).isSome then replace key v ms else insert key v ms

/-- Sorted members with one value for each key: the last one given. -/
def ofList {α : Type} (ms : List (String × α)) : List (String × α) :=
  ms.foldl (fun all m => set m.1 m.2 all) []

variable {α : Type} {key other : String} {v w : α} {ms : List (String × α)}

theorem lookup_cons (m : String × α) :
    (m :: ms).lookup key = if key = m.1 then some m.2 else ms.lookup key := by
  obtain ⟨k, u⟩ := m
  by_cases h : key = k
  · simp [h]
  · simp [List.lookup_cons, beq_eq_false_iff_ne.mpr h, h]

theorem lookup_insert_self (h : ms.lookup key = none) : (insert key v ms).lookup key = some v := by
  induction ms with
  | nil => simp [insert]
  | cons m ms ih =>
    rw [lookup_cons] at h
    split at h
    · cases h
    · rename_i hne
      unfold insert
      split
      · simp
      · rw [lookup_cons, if_neg hne, ih h]

theorem lookup_insert_ne (h : other ≠ key) : (insert key v ms).lookup other = ms.lookup other := by
  induction ms with
  | nil => simp [insert, lookup_cons, h]
  | cons m ms ih =>
    unfold insert
    split
    · rw [lookup_cons, if_neg h]
    · rw [lookup_cons, lookup_cons, ih]

theorem lookup_replace_self (h : (ms.lookup key).isSome) :
    (replace key v ms).lookup key = some v := by
  induction ms with
  | nil => simp at h
  | cons m ms ih =>
    rw [lookup_cons] at h
    unfold replace
    split
    · simp
    · rename_i hne
      rw [if_neg hne] at h
      rw [lookup_cons, if_neg hne, ih h]

theorem lookup_replace_ne (h : other ≠ key) :
    (replace key v ms).lookup other = ms.lookup other := by
  induction ms with
  | nil => rfl
  | cons m ms ih =>
    unfold replace
    split
    · rename_i he
      rw [lookup_cons, lookup_cons, if_neg h, if_neg (he ▸ h)]
    · rw [lookup_cons, lookup_cons, ih]

theorem replace_replace : replace key w (replace key v ms) = replace key w ms := by
  induction ms with
  | nil => rfl
  | cons m ms ih =>
    by_cases h : key = m.1
    · simp [replace, h]
    · simp [replace, h, ih]

theorem replace_insert (h : ms.lookup key = none) :
    replace key w (insert key v ms) = insert key w ms := by
  induction ms with
  | nil => simp [insert, replace]
  | cons m ms ih =>
    rw [lookup_cons] at h
    split at h
    · cases h
    · rename_i hne
      unfold insert
      split
      · simp [replace]
      · simp [replace, hne, ih h]

theorem replace_lookup (h : ms.lookup key = some v) : replace key v ms = ms := by
  induction ms with
  | nil => rfl
  | cons m ms ih =>
    rw [lookup_cons] at h
    unfold replace
    split
    · rename_i he
      rw [if_pos he] at h
      cases h
      rw [he]
    · rename_i hne
      rw [if_neg hne] at h
      rw [ih h]

theorem set_of_lookup (h : (ms.lookup key).isSome) : set key v ms = replace key v ms := if_pos h

theorem set_of_not_lookup (h : ms.lookup key = none) : set key v ms = insert key v ms :=
  if_neg (by simp [h])

theorem lookup_set_self : (set key v ms).lookup key = some v := by
  cases h : ms.lookup key with
  | some _ => rw [set_of_lookup (by simp [h]), lookup_replace_self (by simp [h])]
  | none => rw [set_of_not_lookup h, lookup_insert_self h]

theorem lookup_set_ne (h : other ≠ key) : (set key v ms).lookup other = ms.lookup other := by
  unfold set
  split
  · exact lookup_replace_ne h
  · exact lookup_insert_ne h

/-- The last write wins. -/
theorem set_set : set key w (set key v ms) = set key w ms := by
  rw [set_of_lookup (by simp [lookup_set_self])]
  cases h : ms.lookup key with
  | some _ => rw [set_of_lookup (by simp [h]), set_of_lookup (by simp [h]), replace_replace]
  | none => rw [set_of_not_lookup h, set_of_not_lookup h, replace_insert h]

/-- Writing back what is there changes nothing. -/
theorem set_lookup (h : ms.lookup key = some v) : set key v ms = ms := by
  rw [set_of_lookup (by simp [h]), replace_lookup h]

end DocumentPath.Members
