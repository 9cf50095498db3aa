import Mathlib.Data.List.Forall2
import VisualScript.Proofs.Names.Unique
import VisualScript.Proofs.Terminals.Basic

/-!
# Names that nets share with no other

The candidates for a name are all different, so that of one more than there are used names
at least one is free, and the search takes the first.  A net that gets its first name gets
one that no other net has, and every net keeps the name that it has.  So two nets that were
named by one map have one name exactly if they are one net.
-/

namespace VisualScript.NetNameMap

variable {m : NetNameMap} {g : Graph} {p : PinId}

/-! ## Candidates -/

/-- The names that are tried for a net, one after another. -/
def candidate (base : String) : Nat → String
  | 0 => base
  | k + 1 => Name.numbered base (k + 1)

theorem numbered_ne (base : String) (k : Nat) : Name.numbered base k ≠ base := by
  intro heq
  have hlength := Name.length_numbered base k
  rw [heq] at hlength
  omega

theorem candidate_injective (base : String) : Function.Injective (candidate base) := by
  have hnumbered : Function.Injective (Name.numbered base) := fun _ _ heq ↦
    Name.lowercase_numbered_injective base (congrArg Text.lowercase heq)
  rintro (_ | k) (_ | l) heq
  · rfl
  · exact absurd heq.symm (numbered_ne base (l + 1))
  · exact absurd heq (numbered_ne base (k + 1))
  · exact hnumbered heq

/-- The numbers of the candidates from `k` on that are not used. -/
def unusedFrom (used : List String) (base : String) (k : Nat) : Set Nat :=
  {l | k ≤ l ∧ candidate base l ∉ used}

/-- Of one more candidate than there are used names, one is not used, so that there is a first. -/
theorem exists_isLeast_unused (used : List String) (base : String) :
    ∃ k ≤ used.length, IsLeast (unusedFrom used base 0) k := by
  obtain ⟨k, hk, hfree⟩ := Name.exists_notMem (candidate_injective base) used
  have hunused : k ∈ unusedFrom used base 0 := ⟨Nat.zero_le k, hfree⟩
  obtain ⟨l, hl, hleast⟩ := Name.exists_isLeast_le hunused
  exact ⟨l, hl.trans hk, hleast⟩

/-- The search ends at the first candidate that is not used, if it has tries enough. -/
theorem firstUnused_of_isLeast {used : List String} {base : String} {fuel k l : Nat}
    (hl : IsLeast (unusedFrom used base k) l) (hfuel : l < k + fuel) :
    firstUnused used base (candidate base k) (k + 1) fuel = candidate base l := by
  induction fuel generalizing k with
  | zero =>
    have hle : k ≤ l := hl.1.1
    omega
  | succ fuel ih =>
    unfold firstUnused
    split
    · next hused =>
      have hlt : k < l := Nat.lt_of_le_of_ne hl.1.1 fun heq ↦ hl.1.2 (heq ▸ hused)
      have hnext : IsLeast (unusedFrom used base (k + 1)) l :=
        ⟨⟨hlt, hl.1.2⟩, fun j hj ↦ hl.2 ⟨Nat.le_of_succ_le hj.1, hj.2⟩⟩
      exact ih hnext (by omega)
    · next hfree =>
      obtain rfl : l = k := Nat.le_antisymm (hl.2 ⟨Nat.le_refl k, hfree⟩) hl.1.1
      rfl

/-! ## One name -/

/-- The name that a net gets: the one that it has, or else the first candidate that no net has,
before which no more candidates are passed over than the map has names. -/
def Gives (m : NetNameMap) (g : Graph) (p : PinId) (name : String) : Prop :=
  match m.get? p with
  | some old => name = old
  | none => ∃ k ≤ m.names.length, IsLeast (unusedFrom m.used (baseName g p) 0) k ∧
      name = candidate (baseName g p) k

/-- The search for a name never stops because it runs out of tries. -/
theorem gives_nameOf (m : NetNameMap) (g : Graph) (p : PinId) : m.Gives g p (m.nameOf g p).1 := by
  unfold Gives nameOf
  cases m.get? p with
  | some old => rfl
  | none =>
    obtain ⟨k, hk, hleast⟩ := exists_isLeast_unused m.used (baseName g p)
    have hlength : m.used.length = m.names.length := List.length_map _
    exact ⟨k, hlength ▸ hk, hleast, firstUnused_of_isLeast hleast (by omega)⟩

/-- No two nets have one name. -/
def Distinct (m : NetNameMap) : Prop :=
  ∀ p q name, m.get? p = some name → m.get? q = some name → p = q

theorem mem_used_of_get? {name : String} (h : m.get? p = some name) : name ∈ m.used := by
  obtain ⟨before, after, hnames, -⟩ := List.lookup_eq_some_iff.1 h
  simp [used, hnames]

/-- A net without a name gets one that is not used. -/
theorem nameOf_notMem_used (h : m.get? p = none) : (m.nameOf g p).1 ∉ m.used := by
  have hgives := m.gives_nameOf g p
  unfold Gives at hgives
  rw [h] at hgives
  obtain ⟨k, -, hleast, hname⟩ := hgives
  exact hname ▸ hleast.1.2

theorem get?_nameOf_of_ne {q : PinId} (h : q ≠ p) : (m.nameOf g p).2.get? q = m.get? q := by
  unfold nameOf
  cases m.get? p with
  | some old => rfl
  | none => exact (Assoc.lookup_set _ _ _ _).trans (if_neg h)

theorem Distinct.nameOf (h : m.Distinct) (g : Graph) (p : PinId) : (m.nameOf g p).2.Distinct := by
  cases hold : m.get? p with
  | some old =>
    have hsame : (m.nameOf g p).2 = m := by rw [NetNameMap.nameOf, hold]
    rwa [hsame]
  | none =>
    -- the new name was not used, so that no net but the new one has it
    have hfresh {q : PinId} (hq : (m.nameOf g p).2.get? q = some (m.nameOf g p).1) : q = p := by
      by_contra hne
      rw [get?_nameOf_of_ne hne] at hq
      exact nameOf_notMem_used hold (mem_used_of_get? hq)
    intro q r name hq hr
    by_cases hname : name = (m.nameOf g p).1
    · subst hname
      exact (hfresh hq).trans (hfresh hr).symm
    · have hne {q : PinId} (hq : (m.nameOf g p).2.get? q = some name) : q ≠ p := by
        rintro rfl
        exact hname (Option.some.inj (hq.symm.trans (m.get?_nameOf g q)))
      have hq' := (get?_nameOf_of_ne (hne hq)).symm.trans hq
      have hr' := (get?_nameOf_of_ne (hne hr)).symm.trans hr
      exact h q r name hq' hr'

/-! ## Names in turn -/

/-- The names that one map gives in turn, each to a net of a graph as it is at the time. -/
def nameAll (m : NetNameMap) : List (Graph × PinId) → List String × NetNameMap
  | [] => ([], m)
  | (g, p) :: calls =>
    let (name, m) := m.nameOf g p
    let (names, m) := m.nameAll calls
    (name :: names, m)

theorem extends_nameAll (m : NetNameMap) (calls : List (Graph × PinId)) :
    m.Extends (m.nameAll calls).2 := by
  induction calls generalizing m with
  | nil => exact .refl m
  | cons call calls ih => exact (m.extends_nameOf call.1 call.2).trans (ih _)

theorem Distinct.nameAll (h : m.Distinct) (calls : List (Graph × PinId)) :
    (m.nameAll calls).2.Distinct := by
  induction calls generalizing m with
  | nil => exact h
  | cons call calls ih => exact ih (h.nameOf call.1 call.2)

/-- In the end every net that was named has the name that it was given. -/
theorem get?_nameAll (m : NetNameMap) (calls : List (Graph × PinId)) :
    List.Forall₂ (fun call name ↦ (m.nameAll calls).2.get? call.2 = some name) calls
      (m.nameAll calls).1 := by
  induction calls generalizing m with
  | nil => exact .nil
  | cons call calls ih =>
    refine .cons ?_ (ih _)
    exact (extends_nameAll _ calls).kept _ _ (m.get?_nameOf call.1 call.2)

theorem nameAll_append (m : NetNameMap) (calls calls' : List (Graph × PinId)) :
    (m.nameAll (calls ++ calls')).1 =
      (m.nameAll calls).1 ++ ((m.nameAll calls).2.nameAll calls').1 := by
  induction calls generalizing m with
  | nil => rfl
  | cons call calls ih => exact congrArg (List.cons _) (ih _)

theorem length_nameAll (m : NetNameMap) (calls : List (Graph × PinId)) :
    (m.nameAll calls).1.length = calls.length :=
  (m.get?_nameAll calls).length_eq.symm

/-- Each net in turn gets the name that it has, or else the first candidate that no net has. -/
theorem gives_nameAll (m : NetNameMap) (before after : List (Graph × PinId)) (g : Graph)
    (p : PinId) :
    ∃ name, (m.nameAll (before ++ (g, p) :: after)).1[before.length]? = some name ∧
      (m.nameAll before).2.Gives g p name := by
  refine ⟨_, ?_, (m.nameAll before).2.gives_nameOf g p⟩
  rw [nameAll_append, List.getElem?_append_right (length_nameAll m before).le, length_nameAll,
    Nat.sub_self]
  rfl

/-- Nets that were named by one map have one name exactly if they are one net. -/
theorem Distinct.eq_iff (h : m.Distinct) {calls : List (Graph × PinId)}
    {a b : (Graph × PinId) × String} (ha : a ∈ calls.zip (m.nameAll calls).1)
    (hb : b ∈ calls.zip (m.nameAll calls).1) : a.2 = b.2 ↔ a.1.2 = b.1.2 := by
  have hnamed := List.forall₂_iff_zip.1 (m.get?_nameAll calls)
  have ha' := hnamed.2 ha
  have hb' := hnamed.2 hb
  constructor
  · intro hname
    exact h.nameAll calls _ _ _ ha' (hname ▸ hb')
  · intro hnet
    rw [hnet] at ha'
    exact Option.some.inj (ha'.symm.trans hb')

/-- Whatever the graphs are at the time, each net that is named gets a name: the one that it has, or
else the first candidate that no net has.  Of all that one map names, two have one name exactly
if they are one net. -/
theorem apart_nameAll (calls : List (Graph × PinId)) :
    let names := (({} : NetNameMap).nameAll calls).1
    names.length = calls.length ∧
      (∀ before g p after, calls = before ++ (g, p) :: after →
        ∃ name, names[before.length]? = some name ∧
          (({} : NetNameMap).nameAll before).2.Gives g p name) ∧
      ∀ a ∈ calls.zip names, ∀ b ∈ calls.zip names, a.2 = b.2 ↔ a.1.2 = b.1.2 := by
  have hempty : ({} : NetNameMap).Distinct := fun _ _ _ h ↦ by cases h
  refine ⟨length_nameAll _ calls, ?_, fun a ha b hb ↦ hempty.eq_iff ha hb⟩
  rintro before g p after rfl
  exact gives_nameAll _ before after g p

/-- A node with pins whose names become alike, and one with the name of a numbered candidate. -/
def lookalikes : Graph :=
  let pin (id : Nat) (name : String) : Option Pin :=
    some { id := ⟨id⟩, owner := ⟨0⟩, name, direction := .output, ty := .int }
  { name := "Lookalikes"
    nodes := ⟨#[some { id := ⟨0⟩, kind := .branch, pins := [⟨0⟩, ⟨1⟩, ⟨2⟩] }]⟩
    pins := ⟨#[pin 0 "Left.Door", pin 1 "Left:Door", pin 2 "Left_Door_1"]⟩
    order := [⟨0⟩] }

/-- The first pin is named again once the graph is pruned, and so is one that is not there. -/
def lookalikeCalls : List (Graph × PinId) :=
  [(lookalikes, ⟨0⟩), (lookalikes, ⟨1⟩), (lookalikes, ⟨2⟩), (.empty "Pruned", ⟨0⟩),
    (.empty "Pruned", ⟨3⟩)]

theorem apart_nameAll_lookalikes :
    let names := ["Branch_0_Left_Door", "Branch_0_Left_Door_1", "Branch_0_Left_Door_1_1",
      "Branch_0_Left_Door", "Net_3"]
    (({} : NetNameMap).nameAll lookalikeCalls).1 = names ∧
      (({} : NetNameMap).nameAll (lookalikeCalls.take 2)).2.Gives lookalikes ⟨2⟩
        "Branch_0_Left_Door_1_1" ∧
      ("Branch_0_Left_Door" = "Branch_0_Left_Door" ↔ (⟨0⟩ : PinId) = ⟨0⟩) ∧
      ("Branch_0_Left_Door_1" = "Branch_0_Left_Door_1_1" ↔ (⟨1⟩ : PinId) = ⟨2⟩) := by
  intro names
  have hnames : (({} : NetNameMap).nameAll lookalikeCalls).1 = names := by decide +kernel
  obtain ⟨-, hgives, hapart⟩ := apart_nameAll lookalikeCalls
  rw [hnames] at hgives hapart
  obtain ⟨name, hname, hgiven⟩ := hgives (lookalikeCalls.take 2) lookalikes ⟨2⟩ _ rfl
  obtain rfl : "Branch_0_Left_Door_1_1" = name := Option.some.inj hname
  exact ⟨hnames, hgiven, hapart _ (.head _) _ (.tail _ (.tail _ (.tail _ (.head _)))),
    hapart _ (.tail _ (.head _)) _ (.tail _ (.tail _ (.head _)))⟩

end VisualScript.NetNameMap
