import DocumentPath.Members
import DocumentPath.Value.Basic

namespace DocumentPath.Value

/-- The member of an object or the item of an array under one key. Items are counted from zero. -/
def get? (v : Value) (key : String) : Option Value :=
  match v with
  | .object members => members.lookup key
  | .array items => (Text.readIndex? key.toList).bind fun i => items[i]?
  | _ => none

/-- Gives a slot that exists a new value; without such a slot nothing changes. -/
def put (v : Value) (key : String) (new : Value) : Value :=
  match v with
  | .object members => .object (Members.replace key new members)
  | .array items =>
    match Text.readIndex? key.toList with
    | some i => .array (items.set i new)
    | none => .array items
  | v => v

/-- What a key leads to: a slot of the document, or a value that is worked out and has no slot. -/
inductive Found
  | slot (v : Value)
  | computed (v : Value)

def Found.value : Found → Value
  | .slot v | .computed v => v

/-- The number of items of an array or of characters of a string. -/
def length? : Value → Option Int64
  | .array items => some (Int64.ofNat items.length)
  | .string s => some (Int64.ofNat s.length)
  | _ => none

/-- Like `get?`; where there is no slot the key `length` counts items or characters. -/
def find? (v : Value) (key : String) : Option Found :=
  match v.get? key with
  | some found => some (.slot found)
  | none => if key = "length" then v.length?.map fun n => .computed (.integer n) else none

theorem get?_put_self {v old new : Value} {key : String} (h : v.get? key = some old) :
    (v.put key new).get? key = some new := by
  cases v with
  | object members => exact Members.lookup_replace_self (by simp_all [get?])
  | array items =>
    simp only [get?, Option.bind_eq_some_iff] at h
    obtain ⟨i, hi, h⟩ := h
    have hlt : i < items.length := (List.getElem?_eq_some_iff.mp h).1
    simp [put, get?, hi, hlt]
  | _ => simp [get?] at h

theorem put_put {v w w' : Value} {key : String} : (v.put key w).put key w' = v.put key w' := by
  cases v with
  | object members => simp [put, Members.replace_replace]
  | array items => cases h : Text.readIndex? key.toList <;> simp [put, h]
  | _ => rfl

theorem put_get? {v old : Value} {key : String} (h : v.get? key = some old) :
    v.put key old = v := by
  cases v with
  | object members => simp only [put, Members.replace_lookup h]
  | array items =>
    simp only [get?, Option.bind_eq_some_iff] at h
    obtain ⟨i, hi, h⟩ := h
    obtain ⟨hlt, rfl⟩ := List.getElem?_eq_some_iff.mp h
    simp [put, hi]
  | _ => rfl

private theorem sizeOf_lookup {members : List (String × Value)} {key : String} {w : Value}
    (h : members.lookup key = some w) : sizeOf w < sizeOf members := by
  induction members with
  | nil => simp at h
  | cons m ms ih =>
    rw [Members.lookup_cons] at h
    obtain ⟨k, u⟩ := m
    split at h
    · cases h
      simp only [List.cons.sizeOf_spec, Prod.mk.sizeOf_spec]
      omega
    · have := ih h
      simp only [List.cons.sizeOf_spec]
      omega

/-- A slot is smaller than what holds it. -/
theorem sizeOf_get? {v w : Value} {key : String} (h : v.get? key = some w) :
    sizeOf w < sizeOf v := by
  cases v with
  | object members =>
    have := sizeOf_lookup h
    simp only [object.sizeOf_spec]
    omega
  | array items =>
    simp only [get?, Option.bind_eq_some_iff] at h
    obtain ⟨i, _, h⟩ := h
    have := List.sizeOf_lt_of_mem (List.mem_of_getElem? h)
    simp only [array.sizeOf_spec]
    omega
  | _ => simp [get?] at h

end DocumentPath.Value
