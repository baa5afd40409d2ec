import DocumentPath.Command.Task
import DocumentPath.Proofs.Numbers.Spacing
import DocumentPath.Proofs.Numbers.Whole

namespace DocumentPath

namespace Json

mutual

/-- The parts of a document that have no parts, from left to right. -/
def scalars : Json → List Json
  | .array items => scalarsOfItems items
  | .object members => scalarsOfMembers members
  | j => [j]

def scalarsOfItems : List Json → List Json
  | [] => []
  | j :: js => j.scalars ++ scalarsOfItems js

def scalarsOfMembers : List (String × Json) → List Json
  | [] => []
  | (_, j) :: ms => j.scalars ++ scalarsOfMembers ms

end

/-- The exact value of a number. -/
def number? : Json → Option Rat
  | .integer n => some (mkRat n 1)
  | .float x => (Binary64.dyadic? x).map Binary64.Dyadic.value
  | _ => none

/-- The exact values of all numbers in a document, from left to right. -/
def numbers (j : Json) : List Rat := j.scalars.filterMap number?

/-- Whether 64 bits have room for a number, with or without a sign, and a double is finite. -/
def hasRoom : Json → Bool
  | .integer n => -0x8000000000000000 ≤ n && n < 0x10000000000000000
  | .float x => x.isFinite
  | _ => true

/-- The documents whose numbers are integers of 64 bits, with or without a sign, or finite
doubles. -/
def HasRoom (j : Json) : Prop := ∀ s ∈ j.scalars, s.hasRoom = true

theorem hasRoom_integer_iff {n : Int} :
    (integer n).hasRoom = true ↔ -0x8000000000000000 ≤ n ∧ n < 0x10000000000000000 := by
  simp [hasRoom]

mutual

/-- A document in which each integer without room beside a sign is the nearest double instead. -/
def narrowed : Json → Json
  | .integer n => if n < 0x8000000000000000 then .integer n else .float (Binary64.ofInt n)
  | .array items => .array (narrowedItems items)
  | .object members => .object (narrowedMembers members)
  | j => j

def narrowedItems : List Json → List Json
  | [] => []
  | j :: js => j.narrowed :: narrowedItems js

def narrowedMembers : List (String × Json) → List (String × Json)
  | [] => []
  | (key, j) :: ms => (key, j.narrowed) :: narrowedMembers ms

end

theorem narrowed_integer {n : Int} (h : n < 0x8000000000000000) :
    (integer n).narrowed = .integer n := if_pos h

theorem narrowed_unsigned {n : Int} (h : 0x8000000000000000 ≤ n) :
    (integer n).narrowed = .float (Binary64.ofInt n) := if_neg (by omega)

theorem ofValue_integer {n : Int} (room : (integer n).hasRoom = true) :
    ofValue (toValue (.integer n)) = (integer n).narrowed := by
  obtain ⟨low, high⟩ := hasRoom_integer_iff.mp room
  rw [toValue]
  by_cases signed : n < 0x8000000000000000
  · rw [narrowed_integer signed]
    cases word : Word.ofInt? n with
    | none => rcases Word.ofInt?_eq_none_iff.mp word <;> omega
    | some k => exact congrArg Json.integer (Word.toInt_of_ofInt? word)
  · have none : Word.ofInt? n = none := Word.ofInt?_eq_none_iff.mpr (.inr (by omega))
    obtain ⟨m, rfl⟩ : ∃ m : Nat, n = m := ⟨n.toNat, by omega⟩
    obtain ⟨_, _, dyadic, _⟩ := Binary64.dyadic?_ofInt (show 0x8000000000000000 ≤ m by omega)
      (by omega)
    rw [none, narrowed_unsigned (by omega), ofValue,
      if_pos (Binary64.isFinite_of_dyadic? dyadic)]

mutual

theorem ofValue_toValue {j : Json} (room : j.HasRoom) : ofValue j.toValue = j.narrowed := by
  cases j with
  | integer n => exact ofValue_integer (room _ (List.mem_singleton.mpr rfl))
  | float x => exact if_pos (room _ (List.mem_singleton.mpr rfl))
  | array items => rw [toValue, ofValue, ofValues_toValues room, narrowed]
  | object members => rw [toValue, ofValue, ofMembers_toMembers room, narrowed]
  | _ => rfl

theorem ofValues_toValues {js : List Json} (room : ∀ s ∈ scalarsOfItems js, s.hasRoom = true) :
    ofValues (toValues js) = narrowedItems js := by
  cases js with
  | nil => rfl
  | cons j js =>
    obtain ⟨first, rest⟩ := List.forall_mem_append.mp room
    rw [toValues, ofValues, ofValue_toValue first, ofValues_toValues rest, narrowedItems]

theorem ofMembers_toMembers {ms : List (String × Json)}
    (room : ∀ s ∈ scalarsOfMembers ms, s.hasRoom = true) :
    ofMembers (toMembers ms) = narrowedMembers ms := by
  cases ms with
  | nil => rfl
  | cons m ms =>
    obtain ⟨first, rest⟩ := List.forall_mem_append.mp room
    rw [toMembers, ofMembers, ofValue_toValue first, ofMembers_toMembers rest, narrowedMembers]

end

mutual

/-- Narrowing keeps all parts in their places. -/
theorem scalars_narrowed (j : Json) : j.narrowed.scalars = j.scalars.map narrowed := by
  cases j with
  | integer n =>
    change (integer n).narrowed.scalars = [(integer n).narrowed]
    rcases Int.lt_or_le n 0x8000000000000000 with h | h
    · rw [narrowed_integer h]
      rfl
    · rw [narrowed_unsigned h]
      rfl
  | array items => exact scalarsOfItems_narrowed items
  | object members => exact scalarsOfMembers_narrowed members
  | _ => rfl

theorem scalarsOfItems_narrowed (js : List Json) :
    scalarsOfItems (narrowedItems js) = (scalarsOfItems js).map narrowed := by
  cases js with
  | nil => rfl
  | cons j js =>
    rw [narrowedItems, scalarsOfItems, scalarsOfItems, List.map_append, scalars_narrowed j,
      scalarsOfItems_narrowed js]

theorem scalarsOfMembers_narrowed (ms : List (String × Json)) :
    scalarsOfMembers (narrowedMembers ms) = (scalarsOfMembers ms).map narrowed := by
  cases ms with
  | nil => rfl
  | cons m ms =>
    rw [narrowedMembers, scalarsOfMembers, scalarsOfMembers, List.map_append, scalars_narrowed m.2,
      scalarsOfMembers_narrowed ms]

end

mutual

theorem narrowed_of_signed {j : Json} (h : ∀ n, integer n ∈ j.scalars → n < 0x8000000000000000) :
    j.narrowed = j := by
  cases j with
  | integer n => exact narrowed_integer (h n (List.mem_singleton.mpr rfl))
  | array items => exact congrArg array (narrowedItems_of_signed h)
  | object members => exact congrArg object (narrowedMembers_of_signed h)
  | _ => rfl

theorem narrowedItems_of_signed {js : List Json}
    (h : ∀ n, integer n ∈ scalarsOfItems js → n < 0x8000000000000000) : narrowedItems js = js := by
  cases js with
  | nil => rfl
  | cons j js =>
    have first : j.narrowed = j := narrowed_of_signed fun n hn => h n (List.mem_append_left _ hn)
    have rest : narrowedItems js = js :=
      narrowedItems_of_signed fun n hn => h n (List.mem_append_right _ hn)
    rw [narrowedItems, first, rest]

theorem narrowedMembers_of_signed {ms : List (String × Json)}
    (h : ∀ n, integer n ∈ scalarsOfMembers ms → n < 0x8000000000000000) :
    narrowedMembers ms = ms := by
  cases ms with
  | nil => rfl
  | cons m ms =>
    have first : m.2.narrowed = m.2 :=
      narrowed_of_signed fun n hn => h n (List.mem_append_left _ hn)
    have rest : narrowedMembers ms = ms :=
      narrowedMembers_of_signed fun n hn => h n (List.mem_append_right _ hn)
    rw [narrowedMembers, first, rest]

end

theorem narrowed_eq_iff (j : Json) :
    j.narrowed = j ↔ ∀ n, integer n ∈ j.scalars → n < 0x8000000000000000 := by
  refine ⟨fun h n hn => ?_, narrowed_of_signed⟩
  have same : j.scalars.map narrowed = j.scalars.map id := by
    rw [List.map_id, ← scalars_narrowed, h]
  have kept : (integer n).narrowed = integer n := List.map_inj_left.mp same _ hn
  rcases Int.lt_or_le n 0x8000000000000000 with signed | unsigned
  · exact signed
  · rw [narrowed_unsigned unsigned] at kept
    cases kept

/-- An integer without room beside a sign has the value of the nearest multiple of 2048 then. -/
theorem number?_narrowed_unsigned {n : Int} (room : (integer n).hasRoom = true)
    (low : 0x8000000000000000 ≤ n) :
    number? (integer n).narrowed = some (mkRat (Binary64.spaced n.toNat) 1) := by
  obtain ⟨-, high⟩ := hasRoom_integer_iff.mp room
  obtain ⟨k, rfl⟩ : ∃ k : Nat, n = k := ⟨n.toNat, by omega⟩
  obtain ⟨m, e, dyadic, whole, value⟩ := Binary64.dyadic?_ofInt (n := k) (by omega) (by omega)
  have unscaled : (-e).toNat = 0 := by omega
  rw [narrowed_unsigned low, number?, dyadic]
  change some (mkRat ((m <<< e.toNat : Nat) : Int) (1 <<< (-e).toNat)) = _
  rw [value, unscaled]
  rfl

theorem number?_narrowed_iff {n : Int} (room : (integer n).hasRoom = true) :
    number? (integer n).narrowed = number? (integer n) ↔
      n < 0x8000000000000000 ∨ n % 2048 = 0 := by
  rcases Int.lt_or_le n 0x8000000000000000 with signed | unsigned
  · rw [narrowed_integer signed]
    exact ⟨fun _ => .inl signed, fun _ => rfl⟩
  · have spaced := Binary64.spaced_eq_iff n.toNat
    rw [number?_narrowed_unsigned room unsigned, number?, Option.some_inj,
      Rat.mkRat_eq_iff (by decide) (by decide)]
    omega

theorem isSome_number?_narrowed {s : Json} (room : s.hasRoom = true) :
    (number? s.narrowed).isSome = (number? s).isSome := by
  cases s with
  | integer n =>
    rcases Int.lt_or_le n 0x8000000000000000 with signed | unsigned
    · rw [narrowed_integer signed]
    · rw [number?_narrowed_unsigned room unsigned]
      rfl
  | _ => rfl

/-- Two choices from a list that choose at the same places are equal only where they agree. -/
theorem filterMap_eq_iff {α β : Type} {f g : α → Option β} {l : List α}
    (h : ∀ a ∈ l, (f a).isSome = (g a).isSome) :
    l.filterMap f = l.filterMap g ↔ ∀ a ∈ l, f a = g a := by
  induction l with
  | nil => simp
  | cons a l ih =>
    have first := h a List.mem_cons_self
    have rest := ih fun b hb => h b (List.mem_cons_of_mem a hb)
    rw [List.forall_mem_cons, ← rest]
    cases hf : f a <;> cases hg : g a <;> simp_all

theorem numbers_narrowed_iff {j : Json} (room : j.HasRoom) :
    j.narrowed.numbers = j.numbers ↔
      ∀ n, integer n ∈ j.scalars → n < 0x8000000000000000 ∨ n % 2048 = 0 := by
  have places : ∀ s ∈ j.scalars, ((number? ∘ narrowed) s).isSome = (number? s).isSome :=
    fun s hs => isSome_number?_narrowed (room s hs)
  rw [numbers, numbers, scalars_narrowed, List.filterMap_map, filterMap_eq_iff places]
  constructor
  · exact fun same n hn => (number?_narrowed_iff (room _ hn)).mp (same _ hn)
  · intro kept s hs
    cases s with
    | integer n => exact (number?_narrowed_iff (room _ hs)).mpr (kept n hs)
    | _ => rfl

end Json

/-- The path of the root alone leads to the whole document. -/
theorem Plan.run_root :
    ∃ plan, compile .standard "$" = .ok plan ∧ ∀ data context, plan.run data context = data :=
  ⟨⟨"$", [], []⟩, by with_unfolding_all rfl, fun _ _ => rfl⟩

namespace Command

/-- Reports each match by its value, all at once. -/
def Report.values : Report := ⟨false, false, none⟩

theorem readValue_of_read? {text : String} {j : Json}
    (h : Json.read? Json.depthLimit text.toList = some j) : readValue text = .ok j.toValue := by
  rw [readValue, h]

/-- The query of the root alone gives the document back as it was converted. -/
theorem answer_root {text : String} {j : Json}
    (h : Json.read? Json.depthLimit text.toList = some j) (indented : Bool) :
    Task.answer ⟨some text, none⟩ indented (.query "$" .values) =
      .ok (renderValue indented j.toValue) := by
  have read : Source.read ⟨some text, none⟩ = .ok (j.toValue, .null) := by
    simp only [Source.read, readValue_of_read? h]
    rfl
  rw [Task.answer, query, read]
  with_unfolding_all rfl

end Command

namespace Json

/-- Converting a document and converting it back keeps all but the integers that need their 64 bits
without a sign. Each of those becomes the nearest double, the nearest multiple of 2048, so it keeps
its value only where it is one. The query of the root alone, and reading and writing a document,
narrow it alike. -/
theorem conversion_narrows {j : Json} (room : j.HasRoom) :
    ofValue j.toValue = j.narrowed ∧
    (j.narrowed = j ↔ ∀ n, integer n ∈ j.scalars → n < 0x8000000000000000) ∧
    (j.narrowed.numbers = j.numbers ↔
      ∀ n, integer n ∈ j.scalars → n < 0x8000000000000000 ∨ n % 2048 = 0) ∧
    (∀ n, integer n ∈ j.scalars → 0x8000000000000000 ≤ n →
      number? (integer n).narrowed = some (mkRat (Binary64.spaced n.toNat) 1)) ∧
    (∃ plan, Plan.compile .standard "$" = .ok plan ∧
      ∀ context, ofValue (plan.run j.toValue context) = j.narrowed) ∧
    ∀ text indented, read? depthLimit text.toList = some j →
      (Command.readValue text).map (Command.renderValue indented) =
        .ok (j.narrowed.render indented) ∧
      Command.Task.answer ⟨some text, none⟩ indented (.query "$" .values) =
        .ok (j.narrowed.render indented) := by
  have converted := ofValue_toValue room
  obtain ⟨plan, compiled, root⟩ := Plan.run_root
  refine ⟨converted, narrowed_eq_iff j, numbers_narrowed_iff room,
    fun n hn => number?_narrowed_unsigned (room _ hn), ⟨plan, compiled, fun context => ?_⟩,
    fun text indented read => ⟨?_, ?_⟩⟩
  · rw [root, converted]
  · rw [Command.readValue_of_read? read, ← converted]
    rfl
  · rw [Command.answer_root read, ← converted]
    rfl

theorem conversion_narrows_mixed :
    let j := Json.array [.integer (-0x8000000000000000), .integer 0x8000000000000001, .float 1.5]
    j.HasRoom ∧ ofValue j.toValue = j.narrowed ∧ j.narrowed.numbers ≠ j.numbers ∧
    read? depthLimit "[-9223372036854775808,9223372036854775809,1.5]".toList = some j ∧
    Command.Task.answer ⟨some "[-9223372036854775808,9223372036854775809,1.5]", none⟩ false
      (.query "$" .values) = .ok "[-9223372036854775808,9.223372036854776e+18,1.5]" := by
  intro j
  have room : j.HasRoom := List.all_eq_true.mp (by decide +kernel)
  have read :
      read? depthLimit "[-9223372036854775808,9223372036854775809,1.5]".toList = some j := by
    with_unfolding_all rfl
  obtain ⟨converted, -, numbers, -, -, answers⟩ := conversion_narrows room
  refine ⟨room, converted, fun same => ?_, read, ?_⟩
  · have kept := numbers.mp same 0x8000000000000001 (.tail _ (.head _))
    omega
  · rw [(answers _ false read).2]
    exact congrArg Except.ok (by decide +kernel)

/-- The greatest integer of 64 bits without a sign comes back as `2 ^ 64`. -/
theorem conversion_narrows_greatest :
    let j := Json.integer 0xFFFFFFFFFFFFFFFF
    j.HasRoom ∧ ofValue j.toValue ≠ j ∧ (ofValue j.toValue).numbers ≠ j.numbers ∧
    (ofValue j.toValue).numbers = [mkRat 0x10000000000000000 1] ∧
    read? depthLimit "18446744073709551615".toList = some j ∧
    Command.Task.answer ⟨some "18446744073709551615", none⟩ false (.query "$" .values) =
      .ok "1.8446744073709552e+19" := by
  intro j
  have room : j.HasRoom := List.all_eq_true.mp (by decide +kernel)
  have read : read? depthLimit "18446744073709551615".toList = some j := by with_unfolding_all rfl
  refine ⟨room, fun same => ?_, by decide +kernel, by decide +kernel, read, ?_⟩
  · rw [ofValue_toValue room] at same
    exact Json.noConfusion same
  · rw [Command.answer_root read]
    exact congrArg Except.ok (by decide +kernel)

end Json

end DocumentPath
