import Mathlib.Data.Finset.Card
import Mathlib.Data.List.Nodup
import Mathlib.Data.List.Perm.Subperm
import Mathlib.Order.Lattice.Nat
import Mathlib.Tactic.Tauto
import VisualScript.Compile.Names

/-!
# Unique names

Numbers at the end of a name survive lower-casing.  So of the numbered forms of a
name only as many are taken as there are taken names, and unless there are more
than fit the greatest length one is free.  Settling names one after another
therefore gives names that stay apart, and settling them again changes nothing.
-/

namespace VisualScript

/-! ## Lower-casing numbered names -/

namespace Text

theorem exists_lowerAfter_append (before s t : List Char) :
    ∃ first, lowerAfter before (s ++ t) = first ++ lowerAfter (s.reverse ++ before) t := by
  induction s generalizing before with
  | nil => exact ⟨[], rfl⟩
  | cons c s ih =>
    obtain ⟨first, hfirst⟩ := ih (c :: before)
    rw [List.cons_append, lowerAfter, hfirst, List.reverse_cons, List.append_assoc,
      List.singleton_append, ← List.append_assoc]
    exact ⟨_, rfl⟩

/-- Digits and underscores have no case. -/
theorem lowerAfter_eq_self {s : List Char} (h : ∀ c ∈ s, c = '_' ∨ c.isDigit = true)
    (before : List Char) : lowerAfter before s = s := by
  induction s generalizing before with
  | nil => rfl
  | cons c s ih =>
    have hsmall : c.toNat < 0x80 ∧ c.toLower = c ∧ c ≠ 'Σ' ∧ c ≠ 'İ' := by
      rcases h c List.mem_cons_self with rfl | hdigit
      · decide
      · simp only [Char.isDigit, Bool.and_eq_true, decide_eq_true_eq] at hdigit
        have hlow : 48 ≤ c.val.toNat := hdigit.1
        have hhigh : c.val.toNat ≤ 57 := hdigit.2
        refine ⟨by show c.val.toNat < 128; omega, ?_, ?_, ?_⟩
        · refine dif_neg fun hupper ↦ ?_
          have : 65 ≤ c.val.toNat := hupper.1
          omega
        · rintro rfl
          exact absurd hhigh (by decide)
        · rintro rfl
          exact absurd hhigh (by decide)
    obtain ⟨hascii, hlower, hsigma, hdotted⟩ := hsmall
    rw [lowerAfter, if_neg hsigma, if_neg hdotted, lowerChar, if_pos hascii, hlower,
      ih fun d hd ↦ h d (List.mem_cons_of_mem c hd)]
    rfl

end Text

open Text

namespace Name

/-- A name with a number. -/
def numbered (base : String) (k : Nat) : String := base ++ "_" ++ toString k

theorem toList_numbered (base : String) (k : Nat) :
    (numbered base k).toList = base.toList ++ '_' :: Nat.toDigits 10 k := by
  have hdigits : (toString k).toList = Nat.toDigits 10 k := by
    rw [Nat.toString_eq_ofList_toDigits, String.toList_ofList]
  rw [numbered, String.toList_append, String.toList_append, hdigits, List.append_assoc]
  rfl

theorem exists_lowercase_numbered (base : String) (k : Nat) :
    ∃ first, lowercase (numbered base k) = String.ofList (first ++ '_' :: Nat.toDigits 10 k) := by
  obtain ⟨first, hfirst⟩ :=
    exists_lowerAfter_append [] base.toList ('_' :: Nat.toDigits 10 k)
  refine ⟨first, ?_⟩
  rw [lowercase, toList_numbered, hfirst, lowerAfter_eq_self fun c hc ↦ ?_]
  rcases List.mem_cons.1 hc with rfl | hc
  · exact .inl rfl
  · exact .inr (Nat.isDigit_of_mem_toDigits (by decide) (by decide) hc)

/-- Different numbers make different names, whatever the case. -/
theorem lowercase_numbered_injective (base : String) :
    Function.Injective fun k ↦ lowercase (numbered base k) := by
  intro k l heq
  obtain ⟨first, hk⟩ := exists_lowercase_numbered base k
  obtain ⟨first', hl⟩ := exists_lowercase_numbered base l
  have hlists : first ++ '_' :: Nat.toDigits 10 k = first' ++ '_' :: Nat.toDigits 10 l :=
    String.ofList_injective (hk.symm.trans (Eq.trans heq hl))
  have hlast (first : List Char) (n : Nat) :
      ((first ++ '_' :: Nat.toDigits 10 n).reverse.takeWhile (· ≠ '_')) =
        (Nat.toDigits 10 n).reverse := by
    have hdigits : ∀ c ∈ (Nat.toDigits 10 n).reverse, (decide (c ≠ '_')) = true := by
      intro c hc
      refine decide_eq_true ?_
      rintro rfl
      exact Nat.underscore_not_in_toDigits (List.mem_reverse.1 hc)
    rw [List.reverse_append, List.reverse_cons, List.append_assoc,
      List.takeWhile_append_of_pos hdigits, List.singleton_append,
      List.takeWhile_cons_of_neg (by decide), List.append_nil]
  have hdigits : Nat.toDigits 10 k = Nat.toDigits 10 l := by
    rw [← List.reverse_inj, ← hlast first k, ← hlast first' l, hlists]
  rw [← Nat.ofDigitChars_ten_toDigits (n := k), hdigits, Nat.ofDigitChars_ten_toDigits]

/-- Of one more name than a list holds, one is not on the list. -/
theorem exists_notMem {f : Nat → String} (hf : Function.Injective f) (names : List String) :
    ∃ k ≤ names.length, f k ∉ names := by
  by_contra hnone
  push Not at hnone
  have hnodup : ((List.range (names.length + 1)).map f).Nodup := List.nodup_range.map hf
  have hsubset : (List.range (names.length + 1)).map f ⊆ names := by
    intro name hname
    obtain ⟨k, hk, rfl⟩ := List.mem_map.1 hname
    exact hnone k (Nat.lt_succ_iff.1 (List.mem_range.1 hk))
  have hle := (List.subperm_of_subset hnodup hsubset).length_le
  rw [List.length_map, List.length_range] at hle
  omega

/-- Below a number that will do there is the least one that does. -/
theorem exists_isLeast_le {s : Set Nat} {k : Nat} (h : k ∈ s) : ∃ l ≤ k, IsLeast s l :=
  ⟨sInf s, Nat.sInf_le h, Nat.sInf_mem ⟨k, h⟩, fun _ hl ↦ Nat.sInf_le hl⟩

/-! ## Acceptable names -/

/-- The name is acceptable wherever it is not taken. -/
structure IsPlain (name : String) : Prop where
  ne_empty : name.isEmpty = false
  length_le : name.length ≤ maxLength
  valid : name.toList.any isInvalid = false
  free : reserved.any (eqIgnoreAsciiCase · name) = false

theorem length_numbered (base : String) (k : Nat) :
    (numbered base k).length = base.length + (Nat.toDigits 10 k).length + 1 := by
  rw [← String.length_toList, toList_numbered, List.length_append, List.length_cons,
    String.length_toList, Nat.add_assoc]

theorem length_numbered_mono (base : String) {k l : Nat} (h : l ≤ k) :
    (numbered base l).length ≤ (numbered base k).length := by
  have hk := (Nat.length_toDigits_le_iff (b := 10) (by decide) (Nat.length_toDigits_pos (n := k))).1
    (Nat.le_refl _)
  have hdigits : (Nat.toDigits 10 l).length ≤ (Nat.toDigits 10 k).length :=
    (Nat.length_toDigits_le_iff (by decide) Nat.length_toDigits_pos).2 (Nat.lt_of_le_of_lt h hk)
  rw [length_numbered, length_numbered]
  omega

theorem isInvalid_underscore : isInvalid '_' = false := by decide

theorem isInvalid_of_isDigit {c : Char} (h : c.isDigit = true) : isInvalid c = false := by
  simp only [Char.isDigit, Bool.and_eq_true, decide_eq_true_eq] at h
  have hlow : 48 ≤ c.val.toNat := h.1
  have hhigh : c.val.toNat ≤ 57 := h.2
  refine decide_eq_false fun hmem ↦ ?_
  have hothers : (invalidCharacters.all fun d ↦ d.val.toNat < 48 ∨ 57 < d.val.toNat) = true := by
    decide
  have hother := of_decide_eq_true (List.all_eq_true.1 hothers c hmem)
  omega

theorem sanitize_eq (name : String) : ∃ base : List Char, sanitize name = String.ofList base ∧
    base.length ≤ maxBaseLength ∧ base.any isInvalid = false := by
  refine ⟨_, rfl, List.length_take_le _ _, ?_⟩
  rw [List.any_eq_false]
  intro c hc
  have hmem := List.mem_of_mem_take hc
  split at hmem
  · have hvar : ("Var".toList.any isInvalid) = false := by decide
    exact List.any_eq_false.1 hvar c hmem
  · obtain ⟨d, -, rfl⟩ := List.mem_map.1 hmem
    split
    · exact Bool.not_eq_true _ ▸ isInvalid_underscore
    · next hd => exact hd

/-- A cleaned name leaves room for a number of seven digits. -/
theorem length_numbered_le (name : String) {k : Nat} (hk : k < 10000000) :
    (numbered (sanitize name) k).length ≤ maxLength := by
  obtain ⟨base, hbase, hlength, -⟩ := sanitize_eq name
  have hdigits : (Nat.toDigits 10 k).length ≤ 7 :=
    (Nat.length_toDigits_le_iff (by decide) (by decide)).2 hk
  rw [length_numbered, hbase, String.length_ofList]
  unfold maxBaseLength at hlength
  unfold maxLength at hlength ⊢
  omega

/-- A cleaned name with a number is acceptable if it is short enough and not taken. -/
theorem isPlain_numbered (name : String) {k : Nat}
    (hk : (numbered (sanitize name) k).length ≤ maxLength) :
    IsPlain (numbered (sanitize name) k) := by
  obtain ⟨base, hbase, hlength, hvalid⟩ := sanitize_eq name
  have hchars : (numbered (sanitize name) k).toList = base ++ '_' :: Nat.toDigits 10 k := by
    rw [toList_numbered, hbase, String.toList_ofList]
  refine ⟨?_, hk, ?_, ?_⟩
  · rw [← Bool.not_eq_true, String.isEmpty_iff]
    intro hempty
    rw [hempty] at hchars
    cases base <;> cases hchars
  · rw [hchars, List.any_append, hvalid, List.any_cons, isInvalid_underscore, Bool.false_or,
      Bool.false_or, List.any_eq_false]
    intro c hc
    rw [isInvalid_of_isDigit (Nat.isDigit_of_mem_toDigits (by decide) (by decide) hc)]
    decide
  · rw [List.any_eq_false]
    intro word hword heq
    have hsame : lowercaseAscii word = lowercaseAscii (numbered (sanitize name) k) := eq_of_beq heq
    -- a reserved word has no underscore
    have hscore : '_' ∈ (lowercaseAscii word).toList := by
      rw [hsame, lowercaseAscii, String.toList_ofList, hchars]
      exact List.mem_map.2 ⟨'_', by simp, by decide⟩
    have hplain : ∀ word ∈ reserved, '_' ∉ (lowercaseAscii word).toList := by decide
    exact hplain word hword hscore

end Name

namespace NameValidator

variable {v : NameValidator} {name : String}

theorem validate_eq_ok : v.validate name = .ok ↔ Name.IsPlain name ∧ lowercase name ∉ v.taken := by
  unfold validate
  constructor
  · intro h
    split at h
    · cases h
    split at h
    · cases h
    split at h
    · cases h
    split at h
    · cases h
    split at h
    · cases h
    next hempty hlength hvalid hfree htaken =>
      refine ⟨⟨by simpa using hempty, by omega, by simpa using hvalid, by simpa using hfree⟩, ?_⟩
      simpa [isTaken] using htaken
  · rintro ⟨⟨hempty, hlength, hvalid, hfree⟩, htaken⟩
    rw [hempty, hvalid, hfree, if_neg (by decide), if_neg (by omega), if_neg (by decide),
      if_neg (by decide), if_neg (by simpa [isTaken] using htaken)]

theorem validate_firstSuffixed {base : String} {fuel k : Nat}
    (h : ∃ l, k ≤ l ∧ l < k + fuel ∧ v.validate (Name.numbered base l) = .ok) :
    v.validate (v.firstSuffixed base k fuel) = .ok := by
  induction fuel generalizing k with
  | zero =>
    obtain ⟨l, hle, hlt, -⟩ := h
    omega
  | succ fuel ih =>
    rw [firstSuffixed]
    split
    · next hok => exact hok
    · next hbad =>
      obtain ⟨l, hle, hlt, hok⟩ := h
      refine ih ⟨l, ?_, by omega, hok⟩
      rcases Nat.eq_or_lt_of_le hle with rfl | hlt
      · exact absurd hok hbad
      · exact hlt

/-- Of one more number than there are taken names one makes a name that is not taken. -/
theorem exists_untaken (v : NameValidator) (base : String) :
    ∃ k, 1 ≤ k ∧ k < 1 + (v.taken.length + 1) ∧ lowercase (Name.numbered base k) ∉ v.taken := by
  obtain ⟨k, hk, hfree⟩ := Name.exists_notMem
    ((Name.lowercase_numbered_injective base).comp Nat.succ_injective) v.taken
  exact ⟨k + 1, Nat.succ_pos k, by omega, hfree⟩

/-- The search for an acceptable name ends: with the name, with the cleaned name, or with one of
the numbers. -/
def Ends (v : NameValidator) (name : String) : Prop :=
  v.validate name = .ok ∨ v.validate (Name.sanitize name) = .ok ∨
    ∃ k, 1 ≤ k ∧ v.validate (Name.numbered (Name.sanitize name) k) = .ok

/-- Unless very many names are taken, the search ends. -/
theorem Ends.of_length (htaken : v.taken.length < 9999999) (name : String) : v.Ends name := by
  obtain ⟨k, hk, hlt, hfree⟩ := v.exists_untaken (Name.sanitize name)
  refine .inr (.inr ⟨k, hk, validate_eq_ok.2 ⟨Name.isPlain_numbered name ?_, hfree⟩⟩)
  exact Name.length_numbered_le name (by omega)

/-- If the search ends, the name that it makes is acceptable. -/
theorem Ends.validate_makeUnique (h : v.Ends name) (hne : v.validate name ≠ .ok) :
    v.validate (v.makeUnique name) = .ok := by
  unfold makeUnique
  dsimp only
  split
  · next hok => exact hok
  · next hbad =>
    obtain ⟨k, hk, hok⟩ := (h.resolve_left hne).resolve_left hbad
    obtain ⟨l, hl, hlt, hfree⟩ := v.exists_untaken (Name.sanitize name)
    apply validate_firstSuffixed
    rcases Nat.lt_or_ge k l with hkl | hlk
    · exact ⟨k, hk, by omega, hok⟩
    · -- a smaller number makes no longer name
      have hplain := (validate_eq_ok.1 hok).1
      refine ⟨l, hl, hlt, validate_eq_ok.2 ⟨Name.isPlain_numbered name ?_, hfree⟩⟩
      exact Nat.le_trans (Name.length_numbered_mono _ hlk) hplain.length_le

/-! ## Settling names in turn -/

/-- The name that is taken in the place of a name. -/
def settled (v : NameValidator) (name : String) : String := (v.accept name).1.getD name

theorem accept_of_ok (h : v.validate name = .ok) : v.accept name = (none, v.reserve name) :=
  if_pos h

theorem accept_of_ne (h : v.validate name ≠ .ok) :
    v.accept name = (some (v.makeUnique name), v.reserve (v.makeUnique name)) :=
  if_neg h

theorem settled_of_ok (h : v.validate name = .ok) : v.settled name = name := by
  rw [settled, accept_of_ok h]
  rfl

theorem settled_of_ne (h : v.validate name ≠ .ok) : v.settled name = v.makeUnique name := by
  rw [settled, accept_of_ne h, Option.getD_some]

theorem accept_snd (v : NameValidator) (name : String) :
    (v.accept name).2 = v.reserve (v.settled name) := by
  by_cases h : v.validate name = .ok
  · rw [settled_of_ok h, accept_of_ok h]
  · rw [settled_of_ne h, accept_of_ne h]

theorem Ends.validate_settled (h : v.Ends name) : v.validate (v.settled name) = .ok := by
  by_cases hok : v.validate name = .ok
  · rwa [settled_of_ok hok]
  · rw [settled_of_ne hok]
    exact h.validate_makeUnique hok

/-- Settles names in turn, each beside those before it. -/
def settleAll (v : NameValidator) : List String → List String
  | [] => []
  | name :: names => v.settled name :: (v.reserve (v.settled name)).settleAll names

def reserveAll (v : NameValidator) (names : List String) : NameValidator := names.foldl reserve v

theorem length_settleAll (v : NameValidator) (names : List String) :
    (v.settleAll names).length = names.length := by
  induction names generalizing v with
  | nil => rfl
  | cons name names ih => rw [settleAll, List.length_cons, List.length_cons, ih]

theorem settleAll_append (v : NameValidator) (names names' : List String) :
    v.settleAll (names ++ names') =
      v.settleAll names ++ (v.reserveAll (v.settleAll names)).settleAll names' := by
  induction names generalizing v with
  | nil => rfl
  | cons name names ih =>
    rw [List.cons_append, settleAll, ih]
    rfl

theorem reserveAll_append (v : NameValidator) (names names' : List String) :
    v.reserveAll (names ++ names') = (v.reserveAll names).reserveAll names' :=
  List.foldl_append

/-- The names that do not stay as they are, with those in their place. -/
def changes (v : NameValidator) : List String → List (String × String)
  | [] => []
  | name :: names =>
    (v.accept name).1.toList.map (name, ·) ++ (v.reserve (v.settled name)).changes names

theorem changes_append (v : NameValidator) (names names' : List String) :
    v.changes (names ++ names') =
      v.changes names ++ (v.reserveAll (v.settleAll names)).changes names' := by
  induction names generalizing v with
  | nil => rfl
  | cons name names ih =>
    rw [List.cons_append, changes, changes, ih, List.append_assoc]
    rfl

theorem changes_sublist (v : NameValidator) (names : List String) :
    (v.changes names).Sublist (names.zip (v.settleAll names)) := by
  induction names generalizing v with
  | nil => exact .slnil
  | cons name names ih =>
    have hrest := ih (v.reserve (v.settled name))
    rw [changes, settleAll, List.zip_cons_cons]
    by_cases h : v.validate name = .ok
    · rw [accept_of_ok h]
      exact hrest.cons _
    · rw [accept_of_ne h, settled_of_ne h] at *
      exact hrest.cons_cons _

theorem mem_changes {v : NameValidator} {names : List String} {i : Nat} {old new : String}
    (hold : names[i]? = some old) (hnew : (v.settleAll names)[i]? = some new) (hne : new ≠ old) :
    (old, new) ∈ v.changes names := by
  induction names generalizing v i with
  | nil => cases hold
  | cons name names ih =>
    rw [changes, List.mem_append]
    cases i with
    | zero =>
      obtain rfl := Option.some.inj hold
      obtain rfl := Option.some.inj hnew
      refine .inl (List.mem_map_of_mem (Option.mem_toList.2 ?_))
      by_cases h : v.validate name = .ok
      · exact absurd (settled_of_ok h) hne
      · rw [accept_of_ne h, settled_of_ne h]
    | succ i => exact .inr (ih hold hnew)

theorem mem_taken_reserve {lower : String} :
    lower ∈ (v.reserve name).taken ↔ lower = lowercase name ∨ lower ∈ v.taken :=
  List.mem_insert_iff

theorem mem_taken_reserveAll {lower : String} {names : List String} :
    lower ∈ (v.reserveAll names).taken ↔ lower ∈ names.map lowercase ∨ lower ∈ v.taken := by
  induction names generalizing v with
  | nil => simp [reserveAll]
  | cons name names ih =>
    rw [reserveAll, List.foldl_cons, ← reserveAll, ih, mem_taken_reserve, List.map_cons,
      List.mem_cons]
    tauto

theorem length_taken_reserve_le (v : NameValidator) (name : String) :
    (v.reserve name).taken.length ≤ v.taken.length + 1 := by
  show (v.taken.insert (lowercase name)).length ≤ v.taken.length + 1
  rw [List.insert]
  split
  · exact Nat.le_succ _
  · exact Nat.le_refl _

theorem length_taken_reserveAll_le (v : NameValidator) (names : List String) :
    (v.reserveAll names).taken.length ≤ v.taken.length + names.length := by
  induction names generalizing v with
  | nil => exact Nat.le_refl _
  | cons name names ih =>
    have hfirst := v.length_taken_reserve_le name
    have hrest := ih (v.reserve name)
    rw [reserveAll, List.foldl_cons, ← reserveAll, List.length_cons]
    omega

/-- Each of the names is acceptable beside those before it. -/
def Accepts (v : NameValidator) : List String → Prop
  | [] => True
  | name :: names => v.validate name = .ok ∧ (v.reserve name).Accepts names

theorem accepts_append {names names' : List String} :
    v.Accepts (names ++ names') ↔ v.Accepts names ∧ (v.reserveAll names).Accepts names' := by
  induction names generalizing v with
  | nil => simp [Accepts, reserveAll]
  | cons name names ih =>
    rw [List.cons_append, Accepts, Accepts, ih, and_assoc]
    rfl

theorem accepts_iff {names : List String} :
    v.Accepts names ↔ (names.map lowercase).Nodup ∧
      ∀ name ∈ names, Name.IsPlain name ∧ lowercase name ∉ v.taken := by
  induction names generalizing v with
  | nil => simp [Accepts]
  | cons name names ih =>
    rw [Accepts, ih, validate_eq_ok, List.map_cons, List.nodup_cons, List.forall_mem_cons]
    simp only [mem_taken_reserve, not_or, List.mem_map, not_exists, not_and]
    constructor
    · rintro ⟨hname, hnodup, hrest⟩
      exact ⟨⟨fun other hother ↦ (hrest other hother).2.1, hnodup⟩, hname,
        fun other hother ↦ ⟨(hrest other hother).1, (hrest other hother).2.2⟩⟩
    · rintro ⟨⟨hfirst, hnodup⟩, hname, hrest⟩
      exact ⟨hname, hnodup, fun other hother ↦
        ⟨(hrest other hother).1, hfirst other hother, (hrest other hother).2⟩⟩

/-- The search ends for each of the names in turn. -/
def EndsAll (v : NameValidator) : List String → Prop
  | [] => True
  | name :: names => v.Ends name ∧ (v.reserve (v.settled name)).EndsAll names

theorem EndsAll.of_length {names : List String}
    (hbound : v.taken.length + names.length ≤ 9999999) : v.EndsAll names := by
  induction names generalizing v with
  | nil => trivial
  | cons name names ih =>
    rw [List.length_cons] at hbound
    refine ⟨.of_length (by omega) name, ih ?_⟩
    have := v.length_taken_reserve_le (v.settled name)
    omega

/-- Names that were settled are acceptable in turn. -/
theorem EndsAll.accepts_settleAll {names : List String} (h : v.EndsAll names) :
    v.Accepts (v.settleAll names) := by
  induction names generalizing v with
  | nil => trivial
  | cons name names ih => exact ⟨h.1.validate_settled, ih h.2⟩

theorem changes_of_accepts {names : List String} (h : v.Accepts names) : v.changes names = [] := by
  induction names generalizing v with
  | nil => rfl
  | cons name names ih =>
    have hrest := ih h.2
    rw [changes, settled_of_ok h.1, hrest, accept_of_ok h.1]
    rfl

theorem changes_eq_nil_iff {names : List String} : v.changes names = [] ↔ v.Accepts names := by
  refine ⟨fun h ↦ ?_, changes_of_accepts⟩
  induction names generalizing v with
  | nil => trivial
  | cons name names ih =>
    obtain ⟨hname, hrest⟩ := List.append_eq_nil_iff.1 h
    by_cases hok : v.validate name = .ok
    · rw [settled_of_ok hok] at hrest
      exact ⟨hok, ih hrest⟩
    · rw [accept_of_ne hok] at hname
      cases hname

theorem mem_taken_ofNames {lower : String} {names : List String} :
    lower ∈ (ofNames names).taken ↔ lower ∈ names.map lowercase := by
  have hstart : lower ∉ (default : NameValidator).taken := List.not_mem_nil
  have hall : lower ∈ ((default : NameValidator).reserveAll names).taken ↔
      lower ∈ names.map lowercase ∨ lower ∈ (default : NameValidator).taken :=
    mem_taken_reserveAll
  exact hall.trans (or_iff_left hstart)

theorem length_taken_ofNames_le (names : List String) :
    (ofNames names).taken.length ≤ names.length := by
  have hall := length_taken_reserveAll_le default names
  rwa [show (default : NameValidator).taken.length = 0 from rfl, Nat.zero_add] at hall

end NameValidator

/-!
## Names that are made and taken

Where a cleaned base is not acceptable, its numbered forms are tried from one on.  Unless
very many names are taken, an acceptable one comes within one more try than there are taken
names, and the first of them is the name that is made.  So names that are made in turn, each
taken before the next one is made, are acceptable and stay apart.
-/

namespace NameValidator

open Name Text

variable {v : NameValidator} {base : String}

/-! ### The least number -/

/-- The numbers from `k` on with which the base is acceptable. -/
def freeNumbers (v : NameValidator) (base : String) (k : Nat) : Set Nat :=
  {l | k ≤ l ∧ v.validate (numbered base l) = .ok}

/-- The search ends at the least number, if it has tries enough. -/
theorem firstSuffixed_of_isLeast {fuel k l : Nat} (hl : IsLeast (v.freeNumbers base k) l)
    (hfuel : l < k + fuel) : v.firstSuffixed base k fuel = numbered base l := by
  induction fuel generalizing k with
  | zero =>
    have hle : k ≤ l := hl.1.1
    omega
  | succ fuel ih =>
    rw [firstSuffixed]
    by_cases hk : v.validate (numbered base k) = .ok
    · obtain rfl : l = k := Nat.le_antisymm (hl.2 ⟨Nat.le_refl k, hk⟩) hl.1.1
      exact if_pos hk
    · have hlt : k < l := Nat.lt_of_le_of_ne hl.1.1 fun heq ↦ hk (heq ▸ hl.1.2)
      have hnext : IsLeast (v.freeNumbers base (k + 1)) l :=
        ⟨⟨hlt, hl.1.2⟩, fun m hm ↦ hl.2 ⟨Nat.le_of_succ_le hm.1, hm.2⟩⟩
      exact (if_neg hk).trans (ih hnext (by omega))

/-- Of one more number than there are taken names, one makes a cleaned name acceptable. -/
theorem exists_freeNumber (hfew : v.taken.toFinset.card < 9999999) (name : String) :
    ∃ k ≤ v.taken.toFinset.card + 1, k ∈ v.freeNumbers (sanitize name) 1 := by
  rw [List.card_toFinset] at hfew ⊢
  -- names that are taken repeatedly count once
  obtain ⟨k, hk, hlt, hfree⟩ := exists_untaken ⟨v.taken.dedup⟩ (sanitize name)
  have hle : k ≤ v.taken.dedup.length + 1 := by
    dsimp only at hlt
    omega
  have hplain := isPlain_numbered name (length_numbered_le name (k := k) (by omega))
  exact ⟨k, hle, hk, validate_eq_ok.2 ⟨hplain, fun htaken ↦ hfree (List.mem_dedup.2 htaken)⟩⟩

/-- What is made of a base: the cleaned base where that is acceptable, and else the cleaned base
with the least number with which it is, which comes within one more try than there are taken
names. -/
def Makes (v : NameValidator) (base name : String) : Prop :=
  v.validate name = .ok ∧
    if v.validate (sanitize base) = .ok then name = sanitize base
    else ∃ k ≤ v.taken.toFinset.card + 1, name = numbered (sanitize base) k ∧
      IsLeast (v.freeNumbers (sanitize base) 1) k

/-- The search for a name never stops because it runs out of tries. -/
theorem makes_makeUnique (hfew : v.taken.toFinset.card < 9999999) (base : String) :
    v.Makes base (v.makeUnique base) := by
  by_cases hbase : v.validate (sanitize base) = .ok
  · have hmade : v.makeUnique base = sanitize base := by rw [makeUnique, if_pos hbase]
    rw [Makes, if_pos hbase, hmade]
    exact ⟨hbase, rfl⟩
  · obtain ⟨k, hk, hfree⟩ := exists_freeNumber hfew base
    obtain ⟨l, hlk, hleast⟩ := exists_isLeast_le hfree
    have hl : l ≤ v.taken.toFinset.card + 1 := hlk.trans hk
    have hcard := v.taken.toFinset_card_le
    have hmade : v.makeUnique base = numbered (sanitize base) l := by
      rw [makeUnique, if_neg hbase]
      exact firstSuffixed_of_isLeast hleast (by omega)
    rw [Makes, if_neg hbase, hmade]
    exact ⟨hleast.1.2, l, hl, rfl, hleast⟩

/-! ### Names in turn -/

/-- Makes a name of each base in turn and takes it before the next one is made. -/
def claimAll (v : NameValidator) : List String → List String
  | [] => []
  | base :: bases => v.makeUnique base :: (v.reserve (v.makeUnique base)).claimAll bases

theorem length_claimAll (v : NameValidator) (bases : List String) :
    (v.claimAll bases).length = bases.length := by
  induction bases generalizing v with
  | nil => rfl
  | cons base bases ih => rw [claimAll, List.length_cons, List.length_cons, ih]

/-- Names that are made while few names are taken are acceptable in turn. -/
theorem accepts_claimAll {bases : List String} (hfew : ∀ i < bases.length,
    (v.reserveAll ((v.claimAll bases).take i)).taken.toFinset.card < 9999999) :
    v.Accepts (v.claimAll bases) := by
  induction bases generalizing v with
  | nil => trivial
  | cons base bases ih =>
    have hfirst : v.taken.toFinset.card < 9999999 := hfew 0 (Nat.succ_pos _)
    refine ⟨(makes_makeUnique hfirst base).1, ih fun i hi ↦ ?_⟩
    exact hfew (i + 1) (Nat.succ_lt_succ hi)

/-- While fewer than 9,999,999 names are taken, the least acceptable form of a base is made of it.
So names that are made in turn are acceptable, and whatever the case no two of them are one name
and none is one that was taken before. -/
theorem unique_of_few (v : NameValidator) :
    (v.taken.toFinset.card < 9999999 → ∀ base, v.Makes base (v.makeUnique base)) ∧
      ∀ bases, (∀ i < bases.length,
          (v.reserveAll ((v.claimAll bases).take i)).taken.toFinset.card < 9999999) →
        (v.claimAll bases).length = bases.length ∧
          ((v.claimAll bases).map lowercase).Nodup ∧
            ∀ name ∈ v.claimAll bases, v.validate name = .ok ∧ lowercase name ∉ v.taken := by
  refine ⟨makes_makeUnique, fun bases hfew ↦ ⟨v.length_claimAll bases, ?_⟩⟩
  obtain ⟨hnodup, hnames⟩ := accepts_iff.1 (accepts_claimAll hfew)
  exact ⟨hnodup, fun name hname ↦ ⟨validate_eq_ok.2 (hnames name hname), (hnames name hname).2⟩⟩

/-- A name that is taken in another case, one that is reserved and one with invalid characters. -/
theorem unique_of_few_doors :
    let v := ofNames ["Door", "door_1"]
    let bases := ["DOOR", "self", "Door.2", "Door"]
    v.taken.toFinset.card < 9999999 ∧ v.Makes "DOOR" "DOOR_2" ∧
      (∀ i < 4, (v.reserveAll ((v.claimAll bases).take i)).taken.toFinset.card < 9999999) ∧
        v.claimAll bases = ["DOOR_2", "self_1", "Door_2_1", "Door_3"] ∧
          ((v.claimAll bases).map lowercase).Nodup ∧
            ∀ name ∈ v.claimAll bases, v.validate name = .ok ∧ lowercase name ∉ v.taken := by
  intro v bases
  have hcard : v.taken.toFinset.card < 9999999 := by decide +kernel
  have hfew : ∀ i < 4,
      (v.reserveAll ((v.claimAll bases).take i)).taken.toFinset.card < 9999999 := by
    decide +kernel
  have hmade : v.makeUnique "DOOR" = "DOOR_2" := by decide +kernel
  have hclaimed : v.claimAll bases = ["DOOR_2", "self_1", "Door_2_1", "Door_3"] := by
    decide +kernel
  obtain ⟨hmakes, hclaims⟩ := unique_of_few v
  exact ⟨hcard, hmade ▸ hmakes hcard "DOOR", hfew, hclaimed, (hclaims bases hfew).2⟩

end NameValidator

end VisualScript
