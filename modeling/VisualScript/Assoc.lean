/-!
# Association lists

Tables as lists of pairs in the order in which their keys first came.
-/

namespace VisualScript.Assoc

universe u v

variable {κ : Type u} {ν : Type v} [DecidableEq κ]

/-- Replaces the value of a key where it stands, or adds the key at the end. -/
def set (key : κ) (value : ν) : List (κ × ν) → List (κ × ν)
  | [] => [(key, value)]
  | (k, v) :: rest => if k = key then (k, value) :: rest else (k, v) :: set key value rest

/-- Sets every entry of a list in turn. -/
def setAll (table entries : List (κ × ν)) : List (κ × ν) :=
  entries.foldl (fun table e => set e.1 e.2 table) table

/-- Replaces the value of a key, which starts from `default`, by a function of it. -/
def update (key : κ) (default : ν) (f : ν → ν) (table : List (κ × ν)) : List (κ × ν) :=
  set key (f ((table.lookup key).getD default)) table

theorem lookup_cons_ite (k : κ) (e : κ × ν) (rest : List (κ × ν)) :
    (e :: rest).lookup k = if k = e.1 then some e.2 else rest.lookup k := by
  obtain ⟨a, b⟩ := e
  rw [List.lookup_cons]
  by_cases h : k = a
  · simp [h]
  · simp [h, beq_eq_false_iff_ne.2 h]

@[simp]
theorem lookup_set (key k : κ) (value : ν) (table : List (κ × ν)) :
    (set key value table).lookup k = if k = key then some value else table.lookup k := by
  induction table with
  | nil => simp [set, lookup_cons_ite k]
  | cons head rest ih =>
    rw [set]
    split
    · next h => by_cases hk : k = key <;> simp [lookup_cons_ite, h, hk]
    · next h =>
      by_cases hk : k = head.1
      · simp [lookup_cons_ite, hk, h]
      · simp [lookup_cons_ite, hk, ih]

@[simp]
theorem lookup_update (key k : κ) (default : ν) (f : ν → ν) (table : List (κ × ν)) :
    (update key default f table).lookup k
      = if k = key then some (f ((table.lookup key).getD default)) else table.lookup k :=
  lookup_set key k _ table

/-- Of entries with different keys each is found, before what the table held. -/
theorem lookup_setAll {entries : List (κ × ν)} (h : (entries.map (·.1)).Nodup)
    (table : List (κ × ν)) (k : κ) :
    (setAll table entries).lookup k = (entries.lookup k).or (table.lookup k) := by
  induction entries generalizing table with
  | nil => simp [setAll]
  | cons e rest ih =>
    obtain ⟨hfirst, hrest⟩ := List.nodup_cons.1 h
    have hstep : setAll table (e :: rest) = setAll (set e.1 e.2 table) rest := rfl
    rw [hstep, ih hrest, lookup_set, lookup_cons_ite]
    split
    · next hk =>
      have hnone : rest.lookup k = none := by
        rw [List.lookup_eq_none_iff]
        intro p hp
        simp only [hk, bne_iff_ne, ne_eq]
        exact fun heq => hfirst (List.mem_map.2 ⟨p, hp, heq.symm⟩)
      simp [hnone]
    · rfl

end VisualScript.Assoc
