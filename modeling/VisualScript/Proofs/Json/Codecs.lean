import Mathlib.Data.List.Nodup
import VisualScript.Json.Codec
import VisualScript.Proofs.Json.Documents

/-!
# Codecs that read back what they write

Most types are read back from their text as they are.  Others hold numbers, which come back as
long as integers fit their words and floats are finite: a float that is not is written as null,
which is no float.
-/

namespace VisualScript

open Numeric

/-! ## Numbers in values -/

/-- A number that a value holds. -/
inductive Scalar
  /-- A size or an offset, in 64 bits. -/
  | size (n : Nat)
  /-- The name of a node or pin, in 32 bits. -/
  | index (n : Nat)
  /-- A place on a page, in 32 bits with a sign. -/
  | coordinate (n : Int)
  | float (x : Binary32)
  deriving DecidableEq

namespace Scalar

/-- An integer fits its word. -/
def Fits : Scalar → Prop
  | size n => n < UInt64.size
  | index n => n < UInt32.size
  | coordinate n => -0x80000000 ≤ n ∧ n < 0x80000000
  | float _ => True

/-- A finite float is read back from its text as it is. -/
def Reads : Scalar → Prop
  | float x => x.isFinite = true → ofJson? (toJson x).reread = some x
  | _ => True

def isFinite : Scalar → Bool
  | float x => x.isFinite
  | _ => true

/-- None of the floats is infinite or no number. -/
def AllFinite (l : List Scalar) : Prop := ∀ s ∈ l, s.isFinite = true

instance (s : Scalar) : Decidable s.Fits := by
  cases s <;> unfold Fits <;> infer_instance

instance (s : Scalar) : Decidable s.Reads := by
  cases s <;> unfold Reads <;> infer_instance

instance (l : List Scalar) : Decidable (AllFinite l) :=
  inferInstanceAs (Decidable (∀ s ∈ l, s.isFinite = true))

@[simp]
theorem allFinite_nil : AllFinite [] := List.forall_mem_nil _

@[simp]
theorem allFinite_append {l l' : List Scalar} :
    AllFinite (l ++ l') ↔ AllFinite l ∧ AllFinite l' :=
  List.forall_mem_append

/-- The integers fit their words, and the finite floats are read back. -/
def AllKept (l : List Scalar) : Prop := ∀ s ∈ l, s.Fits ∧ s.Reads

instance (l : List Scalar) : Decidable (AllKept l) :=
  inferInstanceAs (Decidable (∀ s ∈ l, s.Fits ∧ s.Reads))

@[simp]
theorem allKept_nil : AllKept [] := List.forall_mem_nil _

@[simp]
theorem allKept_append {l l' : List Scalar} : AllKept (l ++ l') ↔ AllKept l ∧ AllKept l' :=
  List.forall_mem_append

theorem allKept_singleton {s : Scalar} : AllKept [s] ↔ s.Fits ∧ s.Reads :=
  List.forall_mem_singleton

theorem allFinite_singleton {s : Scalar} : AllFinite [s] ↔ s.isFinite = true :=
  List.forall_mem_singleton

end Scalar

/-- The numbers that a value holds. -/
class HasScalars (α : Type) where
  scalars : α → List Scalar

export HasScalars (scalars)

/-- Values that come back from their texts if their numbers do. -/
class Rereads (α : Type) [JsonCodec α] [HasScalars α] : Prop where
  ofJson?_reread {a : α} (h : Scalar.AllKept (scalars a)) :
    ofJson? (toJson a).reread = if Scalar.AllFinite (scalars a) then some a else none

/-- Values that hold no numbers and come back from their texts. -/
class Plain (α : Type) [JsonCodec α] : Prop where
  ofJson?_reread (a : α) : ofJson? (toJson a).reread = some a

/-- Values that are not written as null, so that null can stand for none of them. -/
class NonNull (α : Type) [JsonCodec α] : Prop where
  reread_ne (a : α) : (toJson a).reread ≠ .null

attribute [simp] Plain.ofJson?_reread

/-! ## Objects -/

namespace Json

@[simp]
theorem lookup_rereadMembers (ms : List (String × Json)) (key : String) :
    (rereadMembers ms).lookup key = (ms.lookup key).map reread := by
  induction ms with
  | nil => rfl
  | cons m ms ih =>
    obtain ⟨k, x⟩ := m
    rw [rereadMembers, List.lookup_cons, List.lookup_cons, ih]
    split <;> rfl

theorem map_fst_rereadMembers (ms : List (String × Json)) :
    (rereadMembers ms).map Prod.fst = ms.map Prod.fst := by
  induction ms with
  | nil => rfl
  | cons m ms ih =>
    obtain ⟨k, x⟩ := m
    exact congrArg (k :: ·) ih

/-- The object of a record has each of the names once. -/
theorem record?_reread {known : List String} {ms : List (String × Json)}
    (hnames : ms.map Prod.fst = known) (hnodup : known.Nodup) :
    record? known (reread (.obj ms)) = some (rereadMembers ms) := by
  have hcount : known.all (fun key ↦ (rereadMembers ms).countP (·.1 == key) ≤ 1) = true := by
    refine List.all_eq_true.2 fun key _ ↦ decide_eq_true ?_
    have hcount := List.countP_map (p := (· == key)) (f := Prod.fst) (l := rereadMembers ms)
    rw [map_fst_rereadMembers, hnames] at hcount
    exact hcount ▸ List.nodup_iff_count_le_one.1 hnodup key
  exact if_pos hcount

end Json

/-! ## Parts that are read or not -/

section Kept

variable {α β : Type} (p q : Prop) [Decidable p] [Decidable q] (a : α)

@[simp]
theorem some_bind (f : α → Option β) : some a >>= f = f a := rfl

@[simp]
theorem kept_bind (f : α → Option β) :
    (if p then some a else none : Option α) >>= f = if p then f a else none := by
  split <;> rfl

@[simp]
theorem map_kept (f : α → β) :
    (if p then some a else none : Option α).map f = if p then some (f a) else none := by
  split <;> rfl

@[simp]
theorem kept_kept (o : Option α) :
    (if p then (if q then o else none) else none) = if p ∧ q then o else none :=
  (ite_and p q o none).symm

end Kept

/-! ## Scalars -/

instance : Plain String := ⟨fun _ ↦ rfl⟩

instance : NonNull String := ⟨fun _ ↦ nofun⟩

instance : Plain Bool := ⟨fun _ ↦ rfl⟩

namespace Json

theorem reread_nat {n : Nat} (h : n < UInt64.size) : (nat n).reread = nat n := by
  have hint := Number.reread_int (n := n) (by omega) (by omega)
  exact congrArg Json.num hint

theorem natural?_nat {bits n : Nat} (h : n < Nat.pow 2 bits) :
    (nat n).natural? bits = some n := by
  have hfits : (0 : Int) ≤ n ∧ (n : Int) < Nat.pow 2 bits :=
    ⟨Int.natCast_nonneg n, Int.ofNat_lt.2 h⟩
  simp only [natural?, nat, integer?, Option.bind_eq_bind, Option.bind_some, hfits, and_self,
    if_true, Int.toNat_natCast]

theorem signed?_int {n : Int} (hlow : -0x80000000 ≤ n) (hhigh : n < 0x80000000) :
    (int n).reread.signed? 32 = some n := by
  have hint := Number.reread_int (n := n) (by rw [UInt64.size]; omega) (by rw [UInt64.size]; omega)
  have hreread : (int n).reread = int n := congrArg Json.num hint
  have hfits : -((Nat.pow 2 31 : Nat) : Int) ≤ n ∧ n < (Nat.pow 2 31 : Nat) := ⟨hlow, hhigh⟩
  rw [hreread]
  simp only [signed?, int, integer?, Option.bind_eq_bind, Option.bind_some]
  exact if_pos hfits

end Json

instance : Plain UInt8 where
  ofJson?_reread n := by
    have hn : n.toNat < UInt8.size := n.toNat_lt
    have hsize : UInt8.size < UInt64.size := by decide
    change ((Json.nat n.toNat).reread.natural? 8).map UInt8.ofNat = some n
    rw [Json.reread_nat (by omega), Json.natural?_nat hn, Option.map_some, UInt8.ofNat_toNat]

instance : Plain Int32 where
  ofJson?_reread n := by
    change ((Json.int n.toInt).reread.signed? 32).map Int32.ofInt = some n
    rw [Json.signed?_int n.le_toInt n.toInt_lt, Option.map_some, Int32.ofInt_toInt]

instance : HasScalars Nat := ⟨fun n ↦ [.size n]⟩

instance : NonNull Nat := ⟨fun _ ↦ nofun⟩

instance : Rereads Nat where
  ofJson?_reread {n} h := by
    have hn : n < UInt64.size := (Scalar.allKept_singleton.1 h).1
    have hfinite : Scalar.AllFinite (scalars n) := Scalar.allFinite_singleton.2 rfl
    rw [if_pos hfinite]
    change (Json.nat n).reread.natural? 64 = some n
    rw [Json.reread_nat hn, Json.natural?_nat hn]

instance : HasScalars Binary32 := ⟨fun x ↦ [.float x]⟩

instance : Rereads Binary32 where
  ofJson?_reread {x} h := by
    have hx : x.isFinite = true → ofJson? (toJson x).reread = some x :=
      (Scalar.allKept_singleton.1 h).2
    have hall : Scalar.AllFinite (scalars x) ↔ x.isFinite = true := Scalar.allFinite_singleton
    by_cases hfinite : x.isFinite = true
    · rw [hx hfinite, if_pos (hall.2 hfinite)]
    · have hnull : toJson x = .null := if_neg hfinite
      rw [hnull, if_neg (mt hall.1 hfinite)]
      rfl

/-! ## Containers -/

section Containers

variable {α β : Type} [JsonCodec α] [JsonCodec β]

theorem ofJson?_option [NonNull α] (a : α) :
    (ofJson? (toJson (some a)).reread : Option (Option α)) =
      (ofJson? (toJson a).reread).map some := by
  have hne := NonNull.reread_ne a
  have hsome : (toJson (some a)).reread = (toJson a).reread := rfl
  rw [hsome]
  generalize (toJson a).reread = j at hne ⊢
  cases j with
  | null => exact absurd rfl hne
  | _ => rfl

instance [Plain α] [NonNull α] : Plain (Option α) where
  ofJson?_reread
    | none => rfl
    | some a => by rw [ofJson?_option, Plain.ofJson?_reread, Option.map_some]

instance [HasScalars α] : HasScalars (Option α) := ⟨fun o ↦ (o.map scalars).getD []⟩

instance [HasScalars α] [Rereads α] [NonNull α] : Rereads (Option α) where
  ofJson?_reread {o} h := by
    cases o with
    | none => exact (if_pos Scalar.allFinite_nil).symm
    | some a =>
      have ha : Scalar.AllKept (scalars a) := h
      rw [ofJson?_option, Rereads.ofJson?_reread ha, map_kept]
      rfl

theorem ofJson?_list (xs : List α) : (ofJson? (toJson xs).reread : Option (List α)) =
    xs.mapM fun a ↦ ofJson? (toJson a).reread := by
  have hitems : Json.rereadItems (xs.map toJson) = xs.map fun a ↦ (toJson a).reread := by
    induction xs with
    | nil => rfl
    | cons x xs ih => exact congrArg _ ih
  change (Json.rereadItems (xs.map toJson)).mapM ofJson? = _
  rw [hitems, List.mapM_map]
  rfl

instance : NonNull (List α) := ⟨fun _ ↦ nofun⟩

instance [Plain α] : Plain (List α) where
  ofJson?_reread xs := by
    rw [ofJson?_list]
    induction xs with
    | nil => rfl
    | cons x xs ih => rw [List.mapM_cons, ih, Plain.ofJson?_reread]; rfl

instance [HasScalars α] : HasScalars (List α) := ⟨fun xs ↦ xs.flatMap scalars⟩

instance [HasScalars α] [Rereads α] : Rereads (List α) where
  ofJson?_reread {xs} h := by
    rw [ofJson?_list]
    induction xs with
    | nil => exact (if_pos Scalar.allFinite_nil).symm
    | cons x xs ih =>
      obtain ⟨hx, hxs⟩ : Scalar.AllKept (scalars x) ∧ Scalar.AllKept (scalars xs) :=
        Scalar.allKept_append.1 h
      have hall : Scalar.AllFinite (scalars (x :: xs)) ↔
          Scalar.AllFinite (scalars x) ∧ Scalar.AllFinite (scalars xs) :=
        Scalar.allFinite_append
      rw [List.mapM_cons, Rereads.ofJson?_reread hx, ih hxs]
      simp [hall]

/-- Of a pair, only the second part may hold numbers. -/
instance [Plain α] [HasScalars β] : HasScalars (α × β) := ⟨fun p ↦ scalars p.2⟩

instance [Plain α] [HasScalars β] [Rereads β] : Rereads (α × β) where
  ofJson?_reread {p} h := by
    have hsecond := Rereads.ofJson?_reread (a := p.2) h
    change (do return (← ofJson? (toJson p.1).reread, ← ofJson? (toJson p.2).reread)) = _
    rw [Plain.ofJson?_reread, hsecond]
    simp
    rfl

end Containers

end VisualScript
