import VisualScript.Json.Codec

/-!
# Slots

A growing row of slots.  Freeing a slot leaves it empty for good, so an index
once freed never finds a value again.
-/

namespace VisualScript

universe u

structure Slots (α : Type u) where
  cells : Array (Option α)

namespace Slots

variable {α : Type u}

instance : Inhabited (Slots α) := ⟨⟨#[]⟩⟩

def empty : Slots α := ⟨#[]⟩

def size (s : Slots α) : Nat := s.cells.size

/-- The value in a slot, if the slot exists and is not freed. -/
def get? (s : Slots α) (i : Nat) : Option α := s.cells[i]?.join

/-- Adds a slot at the end. -/
def push (s : Slots α) (a : α) : Slots α := ⟨s.cells.push (some a)⟩

def append (s : Slots α) (values : List α) : Slots α := values.foldl push s

/-- Changes the value in a slot. -/
def modify (s : Slots α) (i : Nat) (f : α → α) : Slots α := ⟨s.cells.modify i (Option.map f)⟩

/-- Empties a slot. -/
def free (s : Slots α) (i : Nat) : Slots α := ⟨s.cells.modify i fun _ => none⟩

@[simp]
theorem size_push (s : Slots α) (a : α) : (s.push a).size = s.size + 1 := by simp [size, push]

@[simp]
theorem size_modify (s : Slots α) (i : Nat) (f : α → α) : (s.modify i f).size = s.size := by
  simp [size, modify]

@[simp]
theorem size_free (s : Slots α) (i : Nat) : (s.free i).size = s.size := by simp [size, free]

@[simp]
theorem get?_push (s : Slots α) (a : α) (i : Nat) :
    (s.push a).get? i = if i = s.size then some a else s.get? i := by
  by_cases h : i = s.size <;> simp_all [get?, push, size, Array.getElem?_push]

@[simp]
theorem get?_modify (s : Slots α) (j i : Nat) (f : α → α) :
    (s.modify j f).get? i = if j = i then (s.get? i).map f else s.get? i := by
  by_cases h : j = i
  · subst h
    cases hc : s.cells[j]? <;> simp [get?, modify, Array.getElem?_modify, hc]
  · simp [get?, modify, Array.getElem?_modify, h]

@[simp]
theorem get?_free (s : Slots α) (j i : Nat) :
    (s.free j).get? i = if j = i then none else s.get? i := by
  by_cases h : j = i
  · subst h
    cases hc : s.cells[j]? <;> simp [get?, free, Array.getElem?_modify, hc]
  · simp [get?, free, Array.getElem?_modify, h]

theorem get?_eq_none_of_size_le {s : Slots α} {i : Nat} (h : s.size ≤ i) : s.get? i = none := by
  simp_all [get?, size]

end Slots

instance {α : Type} [JsonCodec α] : JsonCodec (Slots α) where
  toJson s := toJson s.cells.toList
  ofJson? j := (ofJson? j : Option (List (Option α))).map fun cells => ⟨cells.toArray⟩

end VisualScript
