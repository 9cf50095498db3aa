import VisualScript.Assoc
import VisualScript.Json.Codec

/-!
# Metadata

A table of texts by name, kept in the order of the names, so equal tables are
equal values.
-/

namespace VisualScript

namespace Metadata

/-- Sets the entry of a name in a sorted list. -/
def insertEntry (key value : String) : List (String × String) → List (String × String)
  | [] => [(key, value)]
  | (k, v) :: rest =>
    if key < k then (key, value) :: (k, v) :: rest
    else if key = k then (key, value) :: rest
    else (k, v) :: insertEntry key value rest

theorem fst_of_mem_insertEntry {key value : String} {entries : List (String × String)}
    {e : String × String} (h : e ∈ insertEntry key value entries) : e.1 = key ∨ e ∈ entries := by
  induction entries with
  | nil => simp_all [insertEntry]
  | cons head rest ih =>
    rw [insertEntry] at h
    split at h
    · rcases List.mem_cons.1 h with rfl | h
      · exact .inl rfl
      · exact .inr h
    · split at h
      · rcases List.mem_cons.1 h with rfl | h
        · exact .inl rfl
        · exact .inr (List.mem_cons_of_mem _ h)
      · rcases List.mem_cons.1 h with rfl | h
        · exact .inr List.mem_cons_self
        · exact (ih h).imp id (List.mem_cons_of_mem _)

theorem pairwise_insertEntry (key value : String) {entries : List (String × String)}
    (h : entries.Pairwise fun a b => a.1 < b.1) :
    (insertEntry key value entries).Pairwise fun a b => a.1 < b.1 := by
  induction entries with
  | nil => simp [insertEntry]
  | cons head rest ih =>
    obtain ⟨hhead, hrest⟩ := List.pairwise_cons.1 h
    rw [insertEntry]
    split
    · next hlt =>
      refine List.pairwise_cons.2 ⟨fun e he => ?_, h⟩
      rcases List.mem_cons.1 he with rfl | he
      · exact hlt
      · exact String.lt_trans hlt (hhead e he)
    · next hlt =>
      split
      · next heq => exact List.pairwise_cons.2 ⟨fun e he => heq ▸ hhead e he, hrest⟩
      · next hne =>
        refine List.pairwise_cons.2 ⟨fun e he => ?_, ih hrest⟩
        rcases fst_of_mem_insertEntry he with heq | he
        · exact heq ▸ Std.lt_of_le_of_ne (String.not_lt.1 hlt) (Ne.symm hne)
        · exact hhead e he

end Metadata

structure Metadata where
  entries : List (String × String)
  sorted : entries.Pairwise fun a b => a.1 < b.1 := by simp
  deriving DecidableEq

namespace Metadata

instance : Inhabited Metadata := ⟨⟨[], by simp⟩⟩

def empty : Metadata := ⟨[], by simp⟩

def get? (m : Metadata) (key : String) : Option String := m.entries.lookup key

def contains (m : Metadata) (key : String) : Bool := (m.get? key).isSome

/-- Sets the text of a name. -/
def insert (m : Metadata) (key value : String) : Metadata :=
  ⟨insertEntry key value m.entries, pairwise_insertEntry key value m.sorted⟩

/-- Sets every entry of a list in turn. -/
def insertAll (m : Metadata) (entries : List (String × String)) : Metadata :=
  entries.foldl (fun m e => m.insert e.1 e.2) m

/-- Drops the entry of a name. -/
def erase (m : Metadata) (key : String) : Metadata :=
  ⟨m.entries.filter (·.1 ≠ key), m.sorted.filter _⟩

def ofList (entries : List (String × String)) : Metadata := empty.insertAll entries

theorem lookup_insertEntry (key value k : String) (entries : List (String × String)) :
    (insertEntry key value entries).lookup k = if k = key then some value else entries.lookup k := by
  induction entries with
  | nil => simp [insertEntry, Assoc.lookup_cons_ite k]
  | cons head rest ih =>
    rw [insertEntry]
    split
    · simp [Assoc.lookup_cons_ite]
    · split
      · next heq => by_cases h : k = head.1 <;> simp [Assoc.lookup_cons_ite, heq, h]
      · next hne =>
        by_cases h : k = head.1
        · simp [Assoc.lookup_cons_ite, h, Ne.symm hne]
        · simp [Assoc.lookup_cons_ite, ih, h]

@[simp]
theorem get?_insert (m : Metadata) (key value k : String) :
    (m.insert key value).get? k = if k = key then some value else m.get? k :=
  lookup_insertEntry key value k m.entries

/-- In an object of texts the last of several members of one name counts. -/
instance : JsonCodec Metadata where
  toJson m := .obj (m.entries.map fun e => (e.1, .str e.2))
  ofJson?
    | .obj members => (members.mapM fun (m : String × Json) => m.2.string?.map fun text => (m.1, text)).map ofList
    | _ => none

end Metadata

end VisualScript
