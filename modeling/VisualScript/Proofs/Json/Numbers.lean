import Mathlib.Data.List.TakeDrop
import VisualScript.Class.Value
import VisualScript.Json.Reader
import VisualScript.Json.Writer

/-!
# Numbers in documents

A written number is read back to its end, whatever follows it, as long as that does not go on
with the number.  Whole numbers of 64 bits are read as what they are.
-/

/-!
## Numerals as literals

The decimal numeral of a number is a literal with that number as its value.
-/

namespace VisualScript

namespace Numeric

theorem digitsValue?_eq {ds : List Char} (h : ∀ c ∈ ds, c.isDigit = true) (acc : Nat) :
    digitsValue? acc ds = some (Nat.ofDigitChars 10 ds acc) := by
  induction ds generalizing acc with
  | nil => rfl
  | cons c ds ih =>
    obtain ⟨hc, hds⟩ := List.forall_mem_cons.1 h
    rw [digitsValue?, if_pos hc, ih hds, Nat.ofDigitChars_cons]

theorem isDigit_of_mem_toDigits {k : Nat} {c : Char} (h : c ∈ Nat.toDigits 10 k) :
    c.isDigit = true :=
  Nat.isDigit_of_mem_toDigits (by decide) (by decide) h

theorem natural?_toDigits (k : Nat) : natural? (Nat.toDigits 10 k) = some k := by
  have hvalue : digitsValue? 0 (Nat.toDigits 10 k) = some k := by
    rw [digitsValue?_eq fun _ ↦ isDigit_of_mem_toDigits, Nat.ofDigitChars_ten_toDigits]
  cases hdigits : Nat.toDigits 10 k with
  | nil => exact absurd hdigits Nat.toDigits_ne_nil
  | cons c ds => rwa [hdigits] at hvalue

/-- A numeral has no sign. -/
theorem takeSign_toDigits (k : Nat) :
    takeSign (Nat.toDigits 10 k) = (false, Nat.toDigits 10 k) := by
  have hdigit := fun c ↦ isDigit_of_mem_toDigits (k := k) (c := c)
  generalize Nat.toDigits 10 k = ds at hdigit
  unfold takeSign
  split
  · exact absurd (hdigit '-' List.mem_cons_self) (by decide)
  · exact absurd (hdigit '+' List.mem_cons_self) (by decide)
  · rfl

theorem int32?_toString {k : Nat} (h : k < 0x80000000) :
    int32? (toString k) = some (Int32.ofNat k) := by
  rw [int32?, Nat.toString_eq_ofList_toDigits, String.toList_ofList, takeSign_toDigits]
  dsimp only
  rw [natural?_toDigits]
  exact if_pos h

end Numeric

namespace Text

theorem isBlank_of_isDigit {c : Char} (h : c.isDigit = true) : isBlank c = false := by
  rw [Bool.eq_false_iff, Ne, isBlank, CharRanges.contains_iff]
  rintro ⟨r, hr, hlow, hhigh⟩
  have hdigit : 48 ≤ c.toNat ∧ c.toNat ≤ 57 := by
    simp only [Char.isDigit, Bool.and_eq_true, decide_eq_true_eq] at h
    exact ⟨h.1, h.2⟩
  simp only [blankRanges, List.mem_cons, List.not_mem_nil, or_false] at hr
  rcases hr with rfl | rfl | rfl | rfl | rfl | rfl | rfl | rfl | rfl | rfl <;> omega

theorem trimChars_eq_self {s : List Char} (h : ∀ c ∈ s, isBlank c = false) : trimChars s = s := by
  have hkeep (l : List Char) (hl : ∀ c ∈ l, isBlank c = false) : l.dropWhile isBlank = l := by
    cases l with
    | nil => rfl
    | cons c l => exact List.dropWhile_cons_of_neg (by simp [hl c List.mem_cons_self])
  rw [trimChars, hkeep s h, hkeep _ fun c hc ↦ h c (List.mem_reverse.1 hc), List.reverse_reverse]

theorem trim_toString (k : Nat) : trim (toString k) = toString k := by
  rw [trim, Nat.toString_eq_ofList_toDigits, String.toList_ofList, trimChars_eq_self]
  exact fun c hc ↦ isBlank_of_isDigit (Numeric.isDigit_of_mem_toDigits hc)

end Text

/-- The numeral of a number is a literal of that number. -/
theorem Value.parse?_toString {k : Nat} (h : k < 0x80000000) :
    Value.parse? .int (toString k) = some (.int (Int32.ofNat k)) := by
  have hsingle : PinType.int.isArray = false := rfl
  have hcategory : PinType.int.category = .int := rfl
  simp only [Value.parse?, hsingle, hcategory, Bool.false_eq_true, if_false, Text.trim_toString,
    Numeric.int32?_toString h, Option.map_some]

end VisualScript

namespace VisualScript.Json

open Numeric Text

/-! ## Digits -/

/-- What follows digits does not begin with one. -/
def NoDigit (rest : List Char) : Prop := ∀ c ∈ rest.head?, c.isDigit = false

/-- What follows a number does not go on with it. -/
def Stops (rest : List Char) : Prop :=
  ∀ c ∈ rest.head?, c.isDigit = false ∧ c ≠ '.' ∧ c ≠ 'e' ∧ c ≠ 'E'

theorem Stops.noDigit {rest : List Char} (h : Stops rest) : NoDigit rest :=
  fun c hc ↦ (h c hc).1

theorem stops_nil : Stops [] := fun _ hc ↦ by cases hc

theorem noDigit_cons {c : Char} {rest : List Char} (h : c.isDigit = false) :
    NoDigit (c :: rest) := by
  intro d hd
  obtain rfl := Option.some.inj hd
  exact h

theorem dropWhile_isDigit {ds rest : List Char} (hds : ∀ c ∈ ds, c.isDigit = true)
    (hrest : NoDigit rest) : (ds ++ rest).dropWhile Char.isDigit = rest := by
  rw [List.dropWhile_append_of_pos hds]
  cases rest with
  | nil => rfl
  | cons c rest => exact List.dropWhile_cons_of_neg (by simp [hrest c rfl])

theorem span_isDigit {ds rest : List Char} (hds : ∀ c ∈ ds, c.isDigit = true)
    (hrest : NoDigit rest) : (ds ++ rest).span Char.isDigit = (ds, rest) := by
  rw [List.span_eq_takeWhile_dropWhile, dropWhile_isDigit hds hrest,
    List.takeWhile_append_of_pos hds]
  cases rest with
  | nil => simp
  | cons c rest => simp [hrest c rfl]

/-- Whole digits are read to their end. -/
theorem exists_wholeDigits {ds : List Char} (hds : ∀ c ∈ ds, c.isDigit = true)
    (kept dropped : Nat) : ∃ k d, ∀ rest, NoDigit rest →
      wholeDigits kept dropped (ds ++ rest) = (k, d, rest) := by
  induction ds generalizing kept dropped with
  | nil =>
    refine ⟨kept, dropped, fun rest hrest ↦ ?_⟩
    cases rest with
    | nil => rfl
    | cons c rest => simp [wholeDigits, hrest c rfl]
  | cons c ds ih =>
    obtain ⟨hc, hds⟩ := List.forall_mem_cons.1 hds
    by_cases hfits : dropped = 0 ∧ kept * 10 + digitValue c < UInt64.size
    · obtain ⟨k, d, h⟩ := ih hds (kept * 10 + digitValue c) 0
      exact ⟨k, d, fun rest hrest ↦ by simp [wholeDigits, hc, hfits, h rest hrest]⟩
    · obtain ⟨k, d, h⟩ := ih hds kept (dropped + 1)
      exact ⟨k, d, fun rest hrest ↦ by simp [wholeDigits, hc, hfits, h rest hrest]⟩

theorem le_ofDigitChars (ds : List Char) (k : Nat) : k ≤ Nat.ofDigitChars 10 ds k := by
  induction ds generalizing k with
  | nil => exact Nat.le_refl k
  | cons c ds ih =>
    rw [Nat.ofDigitChars_cons]
    exact Nat.le_trans (by omega) (ih _)

/-- Digits of a number of 64 bits are all kept. -/
theorem wholeDigits_of_lt {ds rest : List Char} (hds : ∀ c ∈ ds, c.isDigit = true)
    (hrest : NoDigit rest) {kept : Nat} (h : Nat.ofDigitChars 10 ds kept < UInt64.size) :
    wholeDigits kept 0 (ds ++ rest) = (Nat.ofDigitChars 10 ds kept, 0, rest) := by
  induction ds generalizing kept with
  | nil =>
    cases rest with
    | nil => rfl
    | cons c rest => simp [wholeDigits, hrest c rfl]
  | cons c ds ih =>
    obtain ⟨hc, hds⟩ := List.forall_mem_cons.1 hds
    rw [Nat.ofDigitChars_cons, Nat.mul_comm 10] at h ⊢
    have hle : kept * 10 + digitValue c ≤ Nat.ofDigitChars 10 ds (kept * 10 + digitValue c) :=
      le_ofDigitChars ds _
    have hfits : kept * 10 + digitValue c < UInt64.size := Nat.lt_of_le_of_lt hle h
    rw [List.cons_append, wholeDigits, if_pos hc, if_pos ⟨rfl, hfits⟩]
    exact ih hds h

/-- Digits of a fraction are read to their end. -/
theorem exists_fractionDigits {ds : List Char} (hds : ∀ c ∈ ds, c.isDigit = true)
    (kept places : Nat) : ∃ k p, ∀ rest, NoDigit rest →
      fractionDigits kept places (ds ++ rest) = (k, p, rest) := by
  induction ds generalizing kept places with
  | nil =>
    refine ⟨kept, places, fun rest hrest ↦ ?_⟩
    cases rest with
    | nil => rfl
    | cons c rest => simp [fractionDigits, hrest c rfl]
  | cons c ds ih =>
    obtain ⟨hc, hds⟩ := List.forall_mem_cons.1 hds
    by_cases hfits : kept * 10 + digitValue c < UInt64.size
    · obtain ⟨k, p, h⟩ := ih hds (kept * 10 + digitValue c) (places + 1)
      exact ⟨k, p, fun rest hrest ↦ by simp [fractionDigits, hc, hfits, h rest hrest]⟩
    · exact ⟨kept, places, fun rest hrest ↦ by
        simp [fractionDigits, hc, hfits, dropWhile_isDigit hds hrest]⟩

/-! ## Parts of a number -/

/-- Digits without a leading zero. -/
structure IsWhole (ds : List Char) : Prop where
  isDigit : ∀ c ∈ ds, c.isDigit = true
  ne_nil : ds ≠ []
  leading : ds.head? = some '0' → ds = ['0']

/-- Nothing, or a point and digits. -/
def IsFraction (s : List Char) : Prop :=
  s = [] ∨ ∃ ds, s = '.' :: ds ∧ ds ≠ [] ∧ ∀ c ∈ ds, c.isDigit = true

/-- Nothing, or a mark, a sign and digits. -/
def IsExponent (s : List Char) : Prop :=
  s = [] ∨ ∃ sign ds, s = 'e' :: sign :: ds ∧ (sign = '+' ∨ sign = '-') ∧ ds ≠ [] ∧
    ∀ c ∈ ds, c.isDigit = true

/-- What a number goes on with after its whole digits. -/
def afterWhole (negative : Bool) (kept dropped : Nat) (rest : List Char) :
    Option (Number × List Char) :=
  match rest with
  | '.' :: c :: rest =>
    if c.isDigit then do
      let (kept, places, rest) := fractionDigits kept 0 (c :: rest)
      let (exponent, rest) ← exponentPart rest
      some (.decimal ⟨negative, kept, dropped - places + exponent.getD 0⟩, rest)
    else none
  | ['.'] => none
  | rest => do
    let (exponent, rest) ← exponentPart rest
    match exponent with
    | some e => some (.decimal ⟨negative, kept, dropped + e⟩, rest)
    | none => some (wholeNumber negative kept dropped, rest)

theorem unsignedNumber_eq {w rest : List Char} (hw : IsWhole w) (hrest : NoDigit rest)
    {kept dropped : Nat} (h : wholeDigits 0 0 (w ++ rest) = (kept, dropped, rest))
    (negative : Bool) : unsignedNumber negative (w ++ rest) =
      afterWhole negative kept dropped rest := by
  obtain ⟨hdigits, hne, hleading⟩ := hw
  obtain ⟨c, ds, rfl⟩ := List.exists_cons_of_ne_nil hne
  have hc : c.isDigit = true := hdigits c List.mem_cons_self
  by_cases hzero : c = '0'
  · obtain rfl : ds = [] := by
      have hsingle := hleading (congrArg some hzero)
      exact (List.cons.inj hsingle).2
    subst hzero
    have hzero : wholeDigits 0 0 (['0'] ++ rest) = (Nat.ofDigitChars 10 ['0'] 0, 0, rest) :=
      wholeDigits_of_lt hdigits hrest (by decide)
    have hvalue : (kept, dropped, rest) = (0, 0, rest) := h.symm.trans hzero
    obtain ⟨rfl, rfl⟩ : kept = 0 ∧ dropped = 0 := by simpa using hvalue
    cases rest with
    | nil => rfl
    | cons d rest =>
      simp only [List.cons_append, List.nil_append, unsignedNumber, hrest d rfl]
      rfl
  · rw [List.cons_append] at h ⊢
    unfold unsignedNumber
    split
    · next heq => exact absurd (List.cons.inj heq).1 hzero
    · next heq => exact absurd (List.cons.inj heq).1 hzero
    · next heq =>
      obtain ⟨rfl, rfl⟩ := List.cons.inj heq
      rw [if_pos hc, h]
      rfl
    · next heq => cases heq

/-- An exponent is read to its end. -/
theorem exists_exponentPart {s : List Char} (h : IsExponent s) :
    ∃ e, ∀ rest, Stops rest → exponentPart (s ++ rest) = some (e, rest) := by
  obtain rfl | ⟨sign, ds, rfl, hsign, hne, hds⟩ := h
  · refine ⟨none, fun rest hrest ↦ ?_⟩
    cases rest with
    | nil => rfl
    | cons c rest =>
      obtain ⟨-, -, he, hE⟩ := hrest c rfl
      simp [exponentPart, he, hE]
  · let value := ds.foldl (fun n c ↦ 10 * n + digitValue c) 0
    have hdigits {rest : List Char} (hrest : Stops rest) :
        exponentDigits (ds ++ rest) = some (value, rest) := by
      rw [exponentDigits, span_isDigit hds hrest.noDigit]
      obtain ⟨c, ds, rfl⟩ := List.exists_cons_of_ne_nil hne
      rfl
    rcases hsign with rfl | rfl
    · exact ⟨some value, fun rest hrest ↦ by simp [exponentPart, hdigits hrest]⟩
    · exact ⟨some (-value), fun rest hrest ↦ by simp [exponentPart, hdigits hrest]⟩

/-! ## Numbers -/

/-- The text is read as a number to its end, whatever follows. -/
structure ReadsNumber (s : List Char) : Prop where
  head : ∃ c t, s = c :: t ∧ (c = '-' ∨ c.isDigit = true)
  reads : ∃ n, ∀ rest, Stops rest → number (s ++ rest) = some (n, rest)

theorem noDigit_parts {fraction exponent rest : List Char} (hfraction : IsFraction fraction)
    (hexponent : IsExponent exponent) (hrest : Stops rest) :
    NoDigit (fraction ++ (exponent ++ rest)) := by
  obtain rfl | ⟨ds, rfl, -⟩ := hfraction
  · obtain rfl | ⟨sign, ds, rfl, -⟩ := hexponent
    · exact hrest.noDigit
    · exact noDigit_cons rfl
  · exact noDigit_cons rfl

theorem afterWhole_of_ne {s rest : List Char} (h : s.head? ≠ some '.') {e : Option Int}
    (he : exponentPart s = some (e, rest)) (negative : Bool) (kept dropped : Nat) :
    afterWhole negative kept dropped s = some ((e.map fun e ↦
      .decimal ⟨negative, kept, dropped + e⟩).getD (wholeNumber negative kept dropped), rest) := by
  unfold afterWhole
  split
  · exact absurd rfl h
  · exact absurd rfl h
  · rw [he]
    cases e <;> rfl

theorem exists_afterWhole {fraction exponent : List Char} (hfraction : IsFraction fraction)
    (hexponent : IsExponent exponent) (negative : Bool) (kept dropped : Nat) :
    ∃ n, ∀ rest, Stops rest →
      afterWhole negative kept dropped (fraction ++ (exponent ++ rest)) = some (n, rest) := by
  obtain ⟨e, he⟩ := exists_exponentPart hexponent
  obtain rfl | ⟨ds, rfl, hne, hds⟩ := hfraction
  · refine ⟨_, fun rest hrest ↦ afterWhole_of_ne ?_ (he rest hrest) negative kept dropped⟩
    obtain rfl | ⟨sign, ds, rfl, -⟩ := hexponent
    · exact fun h ↦ (hrest _ h).2.1 rfl
    · exact nofun
  · obtain ⟨c, ds, rfl⟩ := List.exists_cons_of_ne_nil hne
    obtain ⟨k, p, hread⟩ := exists_fractionDigits hds kept 0
    refine ⟨.decimal ⟨negative, k, dropped - p + e.getD 0⟩, fun rest hrest ↦ ?_⟩
    have hstop : NoDigit (exponent ++ rest) := noDigit_parts (.inl rfl) hexponent hrest
    have hc : c.isDigit = true := hds c List.mem_cons_self
    have hread := hread _ hstop
    rw [List.cons_append] at hread
    simp only [List.cons_append, afterWhole, hc, if_true, hread, he rest hrest]
    rfl

/-- Digits with a fraction and an exponent are a number. -/
theorem exists_unsignedNumber {w fraction exponent : List Char} (hw : IsWhole w)
    (hfraction : IsFraction fraction) (hexponent : IsExponent exponent) (negative : Bool) :
    ∃ n, ∀ rest, Stops rest →
      unsignedNumber negative (w ++ fraction ++ exponent ++ rest) = some (n, rest) := by
  obtain ⟨kept, dropped, hwhole⟩ := exists_wholeDigits hw.isDigit 0 0
  obtain ⟨n, hn⟩ := exists_afterWhole hfraction hexponent negative kept dropped
  refine ⟨n, fun rest hrest ↦ ?_⟩
  have hstop := noDigit_parts hfraction hexponent hrest
  rw [List.append_assoc, List.append_assoc, unsignedNumber_eq hw hstop (hwhole _ hstop)]
  exact hn rest hrest

theorem number_of_isDigit {c : Char} (hc : c.isDigit = true) (s : List Char) :
    number (c :: s) = unsignedNumber false (c :: s) := by
  unfold number
  split
  · next heq =>
    obtain ⟨rfl, rfl⟩ := List.cons.inj heq
    exact absurd hc (by decide)
  · rfl

theorem readsNumber_parts {w fraction exponent : List Char} (hw : IsWhole w)
    (hfraction : IsFraction fraction) (hexponent : IsExponent exponent) (negative : Bool) :
    ReadsNumber (if negative then '-' :: (w ++ fraction ++ exponent)
      else w ++ fraction ++ exponent) := by
  obtain ⟨n, hn⟩ := exists_unsignedNumber hw hfraction hexponent negative
  cases negative with
  | true => exact ⟨⟨'-', _, rfl, .inl rfl⟩, n, hn⟩
  | false =>
    obtain ⟨c, ds, rfl⟩ := List.exists_cons_of_ne_nil hw.ne_nil
    have hc := hw.isDigit c List.mem_cons_self
    refine ⟨⟨c, _, rfl, .inr hc⟩, n, fun rest hrest ↦ ?_⟩
    have hread := hn rest hrest
    simp only [Bool.false_eq_true, if_false, List.cons_append] at hread ⊢
    rwa [number_of_isDigit hc]

/-! ## What is written -/

theorem exists_toDigits (k : Nat) : ∃ c ds, Nat.toDigits 10 k = c :: ds :=
  List.exists_cons_of_ne_nil Nat.toDigits_ne_nil

theorem isDigit_toDigits (k : Nat) : ∀ c ∈ Nat.toDigits 10 k, c.isDigit = true :=
  fun _ ↦ isDigit_of_mem_toDigits

/-- Numerals have no leading zero. -/
theorem head?_toDigits {k : Nat} (hk : k ≠ 0) : (Nat.toDigits 10 k).head? ≠ some '0' := by
  induction k using Nat.strongRecOn with
  | _ k ih =>
    by_cases hsmall : k < 10
    · rw [Nat.toDigits_of_lt_base hsmall]
      have hdigit : ∀ d < 10, d ≠ 0 → d.digitChar ≠ '0' := by decide
      exact fun h ↦ hdigit k hsmall hk (Option.some.inj h)
    · have hle : 10 ≤ k := Nat.le_of_not_lt hsmall
      obtain ⟨c, ds, hdigits⟩ := exists_toDigits (k / 10)
      have hhead := ih (k / 10) (Nat.div_lt_self (by omega) (by decide)) (by omega)
      rw [Nat.toDigits_of_base_le (by decide) hle, hdigits]
      rwa [hdigits] at hhead

theorem isWhole_toDigits (k : Nat) : IsWhole (Nat.toDigits 10 k) where
  isDigit := isDigit_toDigits k
  ne_nil := Nat.toDigits_ne_nil
  leading h := by
    by_cases hk : k = 0
    · rw [hk, Nat.toDigits_zero]
    · exact absurd h (head?_toDigits hk)

theorem isExponent_exponentText (d : Decimal) : IsExponent ('e' :: d.exponentText ['+']) := by
  unfold Decimal.exponentText
  split
  · exact .inr ⟨'-', _, rfl, .inr rfl, Nat.toDigits_ne_nil, isDigit_toDigits _⟩
  · exact .inr ⟨'+', _, rfl, .inl rfl, Nat.toDigits_ne_nil, isDigit_toDigits _⟩

theorem isDigit_zeros (n : Nat) : ∀ c ∈ zeros n, c.isDigit = true := by
  intro c hc
  rw [List.eq_of_mem_replicate hc]
  rfl

theorem isWhole_of_head {ds : List Char} (hds : ∀ c ∈ ds, c.isDigit = true) (hne : ds ≠ [])
    (h : ds.head? ≠ some '0') : IsWhole ds :=
  ⟨hds, hne, fun hzero ↦ absurd hzero h⟩

/-- A positional number has a fraction. -/
theorem exists_positional (d : Decimal) :
    ∃ w fraction, d.positional = w ++ fraction ∧ IsWhole w ∧ IsFraction fraction := by
  unfold Decimal.positional
  dsimp only
  split
  · exact ⟨['0'], ['.', '0'], rfl, isWhole_toDigits 0, .inr ⟨['0'], rfl, by simp, by simp⟩⟩
  · next hdigits =>
    have hhead := head?_toDigits hdigits
    have hds := isDigit_toDigits d.digits
    obtain ⟨c, ds, hcons⟩ := exists_toDigits d.digits
    rw [hcons] at hhead hds ⊢
    split
    · refine ⟨c :: ds ++ zeros d.exponent.toNat, ['.', '0'], rfl, isWhole_of_head ?_ ?_ hhead,
        .inr ⟨['0'], rfl, by simp, by simp⟩⟩
      · exact List.forall_mem_append.2 ⟨hds, isDigit_zeros _⟩
      · exact List.cons_ne_nil _ _
    · split
      · next hnegative hpoint =>
        obtain ⟨n, hn⟩ := Int.eq_ofNat_of_zero_le (Int.le_of_lt hpoint)
        obtain ⟨m, rfl⟩ : ∃ m, n = m + 1 := ⟨n - 1, by omega⟩
        refine ⟨(c :: ds).take (m + 1), '.' :: (c :: ds).drop (m + 1), ?_,
          isWhole_of_head ?_ ?_ hhead, .inr ⟨_, rfl, ?_, fun x hx ↦ hds x (List.mem_of_mem_drop hx)⟩⟩
        · rw [hn]
          rfl
        · exact fun x hx ↦ hds x (List.mem_of_mem_take hx)
        · exact List.cons_ne_nil _ _
        · intro hnil
          have hlength := List.drop_eq_nil_iff.1 hnil
          omega
      · exact ⟨['0'], '.' :: (zeros _ ++ (c :: ds)), rfl, isWhole_toDigits 0,
          .inr ⟨_, rfl, by simp, List.forall_mem_append.2 ⟨isDigit_zeros _, hds⟩⟩⟩

/-- A number in scientific form has a single digit before the point. -/
theorem exists_mantissa {d : Decimal} (h : d.digits ≠ 0) :
    ∃ w fraction, d.mantissa = w ++ fraction ∧ IsWhole w ∧ IsFraction fraction := by
  have hhead := head?_toDigits h
  have hds := isDigit_toDigits d.digits
  unfold Decimal.mantissa
  obtain ⟨c, ds, hcons⟩ := exists_toDigits d.digits
  rw [hcons] at hhead hds ⊢
  obtain ⟨hc, hds⟩ := List.forall_mem_cons.1 hds
  have hwhole : IsWhole [c] := isWhole_of_head (by simpa using hc) (List.cons_ne_nil _ _) hhead
  cases ds with
  | nil => exact ⟨[c], [], rfl, hwhole, .inl rfl⟩
  | cons second ds =>
    exact ⟨[c], '.' :: second :: ds, rfl, hwhole, .inr ⟨_, rfl, List.cons_ne_nil _ _, hds⟩⟩

theorem toList_toString (n : Int) : (toString n).toList =
    if decide (n < 0) then '-' :: Nat.toDigits 10 n.natAbs else Nat.toDigits 10 n.natAbs := by
  cases n with
  | ofNat k =>
    have hsign : ¬(Int.ofNat k < 0) := Int.not_lt.2 (Int.natCast_nonneg k)
    rw [decide_eq_false hsign]
    exact (congrArg String.toList Nat.toString_eq_ofList_toDigits).trans String.toList_ofList
  | negSucc k =>
    rw [decide_eq_true (Int.negSucc_lt_zero k)]
    have hdigits : (toString (k + 1)).toList = Nat.toDigits 10 (k + 1) := by
      rw [Nat.toString_eq_ofList_toDigits, String.toList_ofList]
    exact (String.toList_append).trans (congrArg ('-' :: ·) hdigits)

/-- Every number is written so that it can be read. -/
theorem readsNumber_write (n : Number) : ReadsNumber n.write.toList := by
  cases n with
  | int n =>
    have hparts := readsNumber_parts (isWhole_toDigits n.natAbs) (.inl rfl) (.inl rfl)
      (decide (n < 0))
    simp only [List.append_nil] at hparts
    rwa [Number.write, toList_toString]
  | decimal d =>
    obtain ⟨w, fraction, exponent, hlayout, hw, hfraction, hexponent⟩ :
        ∃ w fraction exponent, d.document = d.withSign (w ++ fraction ++ exponent) ∧
          IsWhole w ∧ IsFraction fraction ∧ IsExponent exponent := by
      unfold Decimal.document
      split
      · obtain ⟨w, fraction, heq, hw, hfraction⟩ := exists_positional d
        exact ⟨w, fraction, [], by rw [heq, List.append_nil], hw, hfraction, .inl rfl⟩
      · next hlarge =>
        obtain ⟨w, fraction, heq, hw, hfraction⟩ := exists_mantissa (not_or.1 hlarge).1
        exact ⟨w, fraction, _, by rw [Decimal.scientific, heq], hw, hfraction,
          isExponent_exponentText d⟩
    rw [Number.write, hlayout, Decimal.withSign, String.toList_ofList]
    exact readsNumber_parts hw hfraction hexponent d.negative

/-! ## Reading what is written -/

/-- The number that the text of a number is read as. -/
def Number.reread (n : Number) : Number := ((number n.write.toList).map (·.1)).getD n

theorem number_write (n : Number) {rest : List Char} (hrest : Stops rest) :
    number (n.write.toList ++ rest) = some (n.reread, rest) := by
  obtain ⟨m, hm⟩ := (readsNumber_write n).reads
  have halone := hm [] stops_nil
  rw [List.append_nil] at halone
  rw [hm rest hrest, Number.reread, halone]
  rfl

theorem number_toDigits (k : Nat) :
    number (Nat.toDigits 10 k) = unsignedNumber false (Nat.toDigits 10 k) := by
  have hds := isDigit_toDigits k
  obtain ⟨c, ds, hcons⟩ := exists_toDigits k
  rw [hcons] at hds ⊢
  exact number_of_isDigit (hds c List.mem_cons_self) ds

/-- Integers that fit 64 bits are read as they are. -/
theorem Number.reread_int {n : Int} (hlow : -(UInt64.size / 2 : Nat) ≤ n)
    (hhigh : n < UInt64.size) : Number.reread (.int n) = .int n := by
  simp only [UInt64.size] at hlow hhigh
  have hvalue : Nat.ofDigitChars 10 (Nat.toDigits 10 n.natAbs) 0 = n.natAbs :=
    Nat.ofDigitChars_ten_toDigits
  have hread : wholeDigits 0 0 (Nat.toDigits 10 n.natAbs ++ []) = (n.natAbs, 0, []) := by
    rw [wholeDigits_of_lt (isDigit_toDigits n.natAbs) stops_nil.noDigit, hvalue]
    rw [hvalue, UInt64.size]
    omega
  have hunsigned (negative : Bool) : unsignedNumber negative (Nat.toDigits 10 n.natAbs) =
      some (wholeNumber negative n.natAbs 0, []) := by
    have heq := unsignedNumber_eq (isWhole_toDigits n.natAbs) stops_nil.noDigit hread negative
    rw [List.append_nil] at heq
    exact heq
  rw [Number.reread, Number.write, toList_toString]
  by_cases hsign : n < 0
  · have hfits : ¬(n.natAbs = 0 ∨ UInt64.size / 2 < n.natAbs) := by
      rw [UInt64.size]
      omega
    have hint : -(n.natAbs : Int) = n := by omega
    rw [decide_eq_true hsign, if_pos rfl]
    change (((unsignedNumber true _).map _).getD _ : Number) = _
    rw [hunsigned true, Option.map_some, Option.getD_some]
    simp only [wholeNumber, ne_eq, not_true_eq_false, if_false, hfits, hint]
  · have hint : (n.natAbs : Int) = n := by omega
    rw [decide_eq_false hsign, if_neg Bool.false_ne_true, number_toDigits, hunsigned false,
      Option.map_some, Option.getD_some]
    simp only [wholeNumber, ne_eq, not_true_eq_false, Bool.false_eq_true, not_false_eq_true,
      if_true, if_false, hint]

end VisualScript.Json
