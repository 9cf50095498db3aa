import Mathlib.Data.List.TakeWhile
import VisualScript.Graph.Basic
import VisualScript.Proofs.Flags
import VisualScript.Proofs.Json.Codecs
import VisualScript.Proofs.Json.Numbers

/-!
# Graphs in documents

Nodes and pins name each other by indices of 32 bits.  Nothing else in a graph is a number but
the places of nodes and the sizes of arrays.
-/

namespace VisualScript

/-!
## Flag sets in documents

The text of a flag set names its flags between bars, and the flags without a name as one
hexadecimal number.  So it is read back as the set.
-/

open Text

/-! ### Hexadecimal numbers -/

namespace Text

theorem hexNumberFrom?_append (acc : Nat) (s t : List Char) :
    hexNumberFrom? acc (s ++ t) = (hexNumberFrom? acc s).bind fun n ↦ hexNumberFrom? n t := by
  induction s generalizing acc with
  | nil => rfl
  | cons c s ih =>
    rw [List.cons_append, hexNumberFrom?, hexNumberFrom?]
    cases hexValue? c with
    | none => rfl
    | some d => exact ih _

theorem exists_of_mem_hexDigits {n : Nat} {c : Char} (h : c ∈ hexDigits n) :
    ∃ d < 16, c = d.digitChar := by
  rw [hexDigits] at h
  induction n using Nat.strongRecOn with
  | _ n ih =>
    by_cases hsmall : n < 16
    · rw [Nat.toDigits_of_lt_base hsmall, List.mem_singleton] at h
      exact ⟨n, hsmall, h⟩
    · rw [Nat.toDigits_of_base_le (by decide) (Nat.le_of_not_lt hsmall), List.mem_append,
        List.mem_singleton] at h
      rcases h with h | h
      · exact ih (n / 16) (Nat.div_lt_self (by omega) (by decide)) h
      · exact ⟨n % 16, Nat.mod_lt n (by decide), h⟩

theorem hexNumberFrom?_hexDigits (n : Nat) : hexNumberFrom? 0 (hexDigits n) = some n := by
  have hdigit : ∀ d < 16, hexValue? d.digitChar = some d := by decide
  induction n using Nat.strongRecOn with
  | _ n ih =>
    by_cases hsmall : n < 16
    · rw [hexDigits, Nat.toDigits_of_lt_base hsmall]
      simp [hexNumberFrom?, hdigit n hsmall]
    · have hle : 16 ≤ n := Nat.le_of_not_lt hsmall
      have hrest := ih (n / 16) (Nat.div_lt_self (by omega) (by decide))
      rw [hexDigits] at hrest
      rw [hexDigits, Nat.toDigits_of_base_le (by decide) hle, hexNumberFrom?_append, hrest]
      simp only [Option.bind_some, hexNumberFrom?, hdigit _ (Nat.mod_lt n (by decide)),
        Option.bind_eq_bind]
      exact congrArg some (Nat.div_add_mod' n 16)

theorem hexNumber?_hexDigits (n : Nat) : hexNumber? (hexDigits n) = some n := by
  have hne : hexDigits n ≠ [] := Nat.toDigits_ne_nil
  rw [hexNumber?, if_neg (by simp [hne]), hexNumberFrom?_hexDigits]

/-! ### Terms between bars -/

theorem splitChars_of_not_mem {sep : Char} {s : List Char} (h : sep ∉ s) :
    splitChars sep s = [s] := by
  induction s with
  | nil => rfl
  | cons c s ih =>
    obtain ⟨hc, hs⟩ := not_or.1 (List.mem_cons.not.1 h)
    rw [splitChars, if_neg (Ne.symm hc), ih hs]

theorem splitChars_append {sep : Char} {s : List Char} (h : sep ∉ s) (rest : List Char) :
    splitChars sep (s ++ sep :: rest) = s :: splitChars sep rest := by
  induction s with
  | nil => rw [List.nil_append, splitChars, if_pos rfl]
  | cons c s ih =>
    obtain ⟨hc, hs⟩ := not_or.1 (List.mem_cons.not.1 h)
    rw [List.cons_append, splitChars, if_neg (Ne.symm hc), ih hs]

/-- Something with neither bars nor blanks. -/
structure IsTerm (s : List Char) : Prop where
  ne_nil : s ≠ []
  bar : '|' ∉ s
  isBlank : ∀ c ∈ s, isBlank c = false

theorem trimChars_term {s before after : List Char} (hs : IsTerm s)
    (hbefore : ∀ c ∈ before, isBlank c = true) (hafter : ∀ c ∈ after, isBlank c = true) :
    trimChars (before ++ s ++ after) = s := by
  have hkeep {l : List Char} (hne : l ≠ []) (hl : ∀ c ∈ l, isBlank c = false)
      (rest : List Char) : (l ++ rest).dropWhile isBlank = l ++ rest := by
    obtain ⟨c, l, rfl⟩ := List.exists_cons_of_ne_nil hne
    exact List.dropWhile_cons_of_neg (by simp [hl c List.mem_cons_self])
  have hreverse := hkeep (List.reverse_ne_nil_iff.2 hs.ne_nil)
    (fun c hc ↦ hs.isBlank c (List.mem_reverse.1 hc)) []
  rw [List.append_nil] at hreverse
  rw [trimChars, List.append_assoc, List.dropWhile_append_of_pos hbefore,
    hkeep hs.ne_nil hs.isBlank, List.reverse_append,
    List.dropWhile_append_of_pos fun c hc ↦ hafter c (List.mem_reverse.1 hc), hreverse,
    List.reverse_reverse]

/-- What is not blank is not trimmed. -/
theorem trimChars_ne_nil {s : List Char} {c : Char} (hc : c ∈ s) (hblank : isBlank c = false) :
    trimChars s ≠ [] := by
  intro h
  rw [trimChars, List.reverse_eq_nil_iff, List.dropWhile_eq_nil_iff] at h
  have hnil : s.dropWhile isBlank = [] := by
    cases hdrop : s.dropWhile isBlank with
    | nil => rfl
    | cons d l =>
      have hd := List.head_dropWhile_not isBlank (by simp [hdrop] : s.dropWhile isBlank ≠ [])
      have hmem : d ∈ (s.dropWhile isBlank).reverse := by simp [hdrop]
      simp [hdrop, h d hmem] at hd
  rw [List.dropWhile_eq_nil_iff] at hnil
  rw [hnil c hc] at hblank
  cases hblank

/-- Terms that are joined by bars are found again. -/
theorem map_trim_split {t : String} {ts : List String} (h : ∀ s ∈ t :: ts, IsTerm s.toList)
    {before : List Char} (hbar : '|' ∉ before) (hbefore : ∀ c ∈ before, isBlank c = true) :
    (splitChars '|' (before ++ (" | ".intercalate (t :: ts)).toList)).map trimChars =
      (t :: ts).map String.toList := by
  induction ts generalizing t before with
  | nil =>
    have ht := h t List.mem_cons_self
    have hwhole := trimChars_term ht hbefore (List.forall_mem_nil _)
    rw [List.append_nil] at hwhole
    have hsplit : '|' ∉ before ++ t.toList := by
      rw [List.mem_append, not_or]
      exact ⟨hbar, ht.bar⟩
    rw [String.intercalate_singleton, splitChars_of_not_mem hsplit]
    exact congrArg (· :: []) hwhole
  | cons u us ih =>
    have ht := h t List.mem_cons_self
    have hspace : ∀ c ∈ [' '], isBlank c = true := by
      intro c hc
      rw [List.mem_singleton.1 hc]
      decide
    have htext : before ++ (" | ".intercalate (t :: u :: us)).toList =
        (before ++ t.toList ++ [' ']) ++ '|' :: ([' '] ++ (" | ".intercalate (u :: us)).toList) := by
      rw [String.intercalate_cons_cons]
      simp
    have hsplit : '|' ∉ before ++ t.toList ++ [' '] := by
      rw [List.mem_append, List.mem_append, not_or, not_or]
      exact ⟨⟨hbar, ht.bar⟩, by decide⟩
    rw [htext, splitChars_append hsplit, List.map_cons, trimChars_term ht hbefore hspace,
      ih (fun s hs ↦ h s (List.mem_cons_of_mem t hs)) (by decide) hspace]
    rfl

end Text

/-! ### Flag sets -/

namespace Flags

variable {family : FlagFamily}

theorem has_union (sets : List (Flags family)) (i : Nat) :
    (union sets).has i = sets.any (·.has i) := by
  have hfold (a : Flags family) :
      (sets.foldl (· ||| ·) a).has i = (a.has i || sets.any (·.has i)) := by
    induction sets generalizing a with
    | nil => simp
    | cons b sets ih => simp [ih, Bool.or_assoc]
  rw [union, hfold, has_empty, Bool.false_or]

/-- A set is made of flags in it and of what is left. -/
theorem union_without {a : Flags family} {sets : List (Flags family)}
    (h : ∀ b ∈ sets, a.contains b = true) : union (sets ++ [a.without (union sets)]) = a := by
  refine ext_has fun i hi ↦ ?_
  have hsub : (union sets).has i = true → a.has i = true := by
    rw [has_union, List.any_eq_true]
    rintro ⟨b, hb, hhas⟩
    exact contains_iff.1 (h b hb) i hi hhas
  rw [has_union, List.any_append, ← has_union, List.any_cons, List.any_nil, Bool.or_false,
    has_without a _ hi]
  cases hunion : (union sets).has i with
  | false => simp
  | true => simp [hsub hunion]

/-- Names are read as their flags. -/
theorem term?_name {e : String × Flags family} (h : e ∈ family.bits) :
    IsTerm e.1.toList ∧ term? family e.1.toList = some e.2 := by
  have hall : ∀ e ∈ family.bits, e.1.toList ≠ [] ∧ '|' ∉ e.1.toList ∧
      e.1.toList.any isBlank = false ∧ term? family e.1.toList = some e.2 := by
    cases family <;> decide +kernel
  obtain ⟨hne, hbar, hblank, hread⟩ := hall e h
  exact ⟨⟨hne, hbar, fun c hc ↦ Bool.eq_false_iff.2 (List.any_eq_false.1 hblank c hc)⟩, hread⟩

/-- A hexadecimal number is read as its bits. -/
theorem term?_number (family : FlagFamily) (n : UInt32) : IsTerm ('0' :: 'x' :: hexDigits n.toNat) ∧
    term? family ('0' :: 'x' :: hexDigits n.toNat) = some ⟨n⟩ := by
  have hall : ∀ d < 16, d.digitChar ≠ '|' ∧ d.digitChar ≠ '+' ∧ isBlank d.digitChar = false := by
    decide
  have hdigits : ∀ c ∈ hexDigits n.toNat, c ≠ '|' ∧ c ≠ '+' ∧ isBlank c = false := by
    intro c hc
    obtain ⟨d, hd, rfl⟩ := exists_of_mem_hexDigits hc
    exact hall d hd
  have hvalue := hexNumber?_hexDigits n.toNat
  refine ⟨⟨List.cons_ne_nil _ _, ?_, ?_⟩, ?_⟩
  · simp only [List.mem_cons, not_or]
    exact ⟨by decide, by decide, fun h ↦ (hdigits _ h).1 rfl⟩
  · refine List.forall_mem_cons.2 ⟨by decide, List.forall_mem_cons.2 ⟨by decide, ?_⟩⟩
    exact fun c hc ↦ (hdigits c hc).2.2
  · generalize hexDigits n.toNat = s at hdigits hvalue
    rw [term?]
    · have hn : n.toNat < UInt32.size := n.toNat_lt
      simp only [hvalue, Option.bind_eq_bind, Option.bind_some, hn, if_true, UInt32.ofNat_toNat]
    · rintro rest rfl
      exact (hdigits '+' List.mem_cons_self).2.1 rfl

/-- The terms of a set are read as flags that make the set. -/
theorem mapM_terms (a : Flags family) : (∀ s ∈ a.terms, IsTerm s.toList) ∧
    ((a.terms.map String.toList).mapM (term? family)).map union = some a := by
  let named := family.bits.filter fun e ↦ a.contains e.2
  let rest := a.without (union (named.map (·.2)))
  have hnamed : ∀ e ∈ named, IsTerm e.1.toList ∧ term? family e.1.toList = some e.2 :=
    fun e he ↦ term?_name (List.mem_filter.1 he).1
  have hread : ((named.map (·.1)).map String.toList).mapM (term? family) =
      some (named.map (·.2)) := by
    generalize named = l at hnamed
    induction l with
    | nil => rfl
    | cons e l ih =>
      obtain ⟨he, hl⟩ := List.forall_mem_cons.1 hnamed
      rw [List.map_cons, List.map_cons, List.mapM_cons, he.2, ih hl]
      rfl
  have hunion : union (named.map (·.2) ++ [rest]) = a := by
    refine union_without ?_
    rintro b hb
    obtain ⟨e, he, rfl⟩ := List.mem_map.1 hb
    exact (List.mem_filter.1 he).2
  have hterms : a.terms = named.map (·.1) ++
      if rest.isEmpty then [] else ["0x" ++ String.ofList (hexDigits rest.bits.toNat)] := rfl
  have hnames : ∀ s ∈ named.map (·.1), IsTerm s.toList := List.forall_mem_map.2 fun e he ↦
    (hnamed e he).1
  rw [hterms]
  split
  · next hempty =>
    have hrest : rest = empty := congrArg Flags.mk (eq_of_beq hempty)
    have hsame : union (named.map (·.2)) = a := by
      refine Eq.trans (ext_has fun i _ ↦ ?_) hunion
      rw [has_union, has_union, List.any_append, hrest]
      simp
    rw [List.append_nil, hread, Option.map_some, hsame]
    exact ⟨hnames, rfl⟩
  · obtain ⟨hterm, hnumber⟩ := term?_number family rest.bits
    have htext : ("0x" ++ String.ofList (hexDigits rest.bits.toNat)).toList =
        '0' :: 'x' :: hexDigits rest.bits.toNat := by simp
    refine ⟨List.forall_mem_append.2 ⟨hnames, List.forall_mem_singleton.2 (htext ▸ hterm)⟩, ?_⟩
    rw [List.map_append, List.mapM_append, hread, List.map_singleton, htext, List.mapM_cons,
      hnumber]
    exact congrArg some hunion

theorem ofText?_text (a : Flags family) : ofText? family a.text = some a := by
  obtain ⟨hterms, hread⟩ := mapM_terms a
  rw [ofText?, text]
  cases hlist : a.terms with
  | nil =>
    rw [hlist] at hread
    exact hread
  | cons t ts =>
    rw [hlist] at hterms hread
    have hsplit := map_trim_split hterms (List.not_mem_nil (a := '|')) (List.forall_mem_nil _)
    rw [List.nil_append] at hsplit
    have hfull : trimChars (" | ".intercalate (t :: ts)).toList ≠ [] := by
      have ht := hterms t List.mem_cons_self
      obtain ⟨c, l, hcons⟩ := List.exists_cons_of_ne_nil ht.ne_nil
      have hc : c ∈ t.toList := hcons ▸ List.mem_cons_self
      refine trimChars_ne_nil ?_ (ht.isBlank c hc)
      cases ts with
      | nil => rwa [String.intercalate_singleton]
      | cons u us =>
        rw [String.intercalate_cons_cons, String.toList_append, String.toList_append]
        exact List.mem_append_left _ (List.mem_append_left _ hc)
    have hparts : (splitChars '|' (" | ".intercalate (t :: ts)).toList).mapM
        (fun s ↦ term? family (trimChars s)) = ((t :: ts).map String.toList).mapM (term? family) := by
      rw [← hsplit, List.mapM_map]
      rfl
    rw [if_neg (by simpa using hfull), hparts, hread]

instance : Plain (Flags family) := ⟨ofText?_text⟩

instance : NonNull (Flags family) := ⟨fun _ ↦ nofun⟩

end Flags

open Json

attribute [local simp] Json.field Json.fieldOr Json.optional List.lookup_cons

/-! ## Types and references -/

instance : Plain Direction := ⟨fun d ↦ by cases d <;> rfl⟩

instance : Plain PinCategory := ⟨fun c ↦ by cases c <;> rfl⟩

instance : Plain PinType where
  ofJson?_reread t := by
    unfold toJson ofJson? PinType.instJsonCodec
    dsimp only
    rw [record?_reread (by rfl) (by decide)]
    simp [-Option.bind_eq_bind]

instance : NonNull PinType := ⟨fun _ ↦ nofun⟩

instance : Plain VariableReference where
  ofJson?_reread v := by
    unfold toJson ofJson? VariableReference.instJsonCodec
    dsimp only
    rw [record?_reread (by rfl) (by decide)]
    simp [-Option.bind_eq_bind]

instance : NonNull VariableReference := ⟨fun _ ↦ nofun⟩

instance : Plain LocalVariable where
  ofJson?_reread v := by
    unfold toJson ofJson? instJsonCodecLocalVariable
    dsimp only
    rw [record?_reread (by rfl) (by decide)]
    simp [-Option.bind_eq_bind]

namespace Metadata

theorem insertEntry_of_lt {key value : String} {entries : List (String × String)}
    (h : ∀ e ∈ entries, e.1 < key) : insertEntry key value entries = entries ++ [(key, value)] := by
  induction entries with
  | nil => rfl
  | cons e entries ih =>
    obtain ⟨he, hentries⟩ := List.forall_mem_cons.1 h
    have hne : key ≠ e.1 := fun heq ↦ String.lt_irrefl key (heq ▸ he)
    rw [insertEntry, if_neg (String.lt_asymm he), if_neg hne, ih hentries]
    rfl

/-- Entries in order are all added at the end. -/
theorem entries_insertAll {m : Metadata} {entries : List (String × String)}
    (h : (m.entries ++ entries).Pairwise fun a b ↦ a.1 < b.1) :
    (m.insertAll entries).entries = m.entries ++ entries := by
  induction entries generalizing m with
  | nil => exact (List.append_nil _).symm
  | cons e entries ih =>
    have hinsert : (m.insert e.1 e.2).entries = m.entries ++ [e] :=
      insertEntry_of_lt fun a ha ↦ (List.pairwise_append.1 h).2.2 a ha e List.mem_cons_self
    have hrest := ih (m := m.insert e.1 e.2) (by rwa [hinsert, List.append_assoc])
    rw [hinsert, List.append_assoc] at hrest
    exact hrest

theorem eq_of_entries {m m' : Metadata} (h : m.entries = m'.entries) : m = m' := by
  obtain ⟨entries, sorted⟩ := m
  obtain ⟨entries', sorted'⟩ := m'
  subst h
  rfl

theorem ofList_entries (m : Metadata) : ofList m.entries = m :=
  eq_of_entries (entries_insertAll m.sorted)

instance : Plain Metadata where
  ofJson?_reread m := by
    have hmembers : rereadMembers (m.entries.map fun e ↦ (e.1, .str e.2)) =
        m.entries.map fun e ↦ (e.1, .str e.2) := by
      induction m.entries with
      | nil => rfl
      | cons e entries ih => exact congrArg _ ih
    have hread : (m.entries.map fun e ↦ (e.1, Json.str e.2)).mapM
        (fun member ↦ member.2.string?.map fun text ↦ (member.1, text)) = some m.entries := by
      rw [List.mapM_map]
      induction m.entries with
      | nil => rfl
      | cons e entries ih =>
        rw [List.mapM_cons, ih]
        rfl
    change Option.map ofList ((rereadMembers _).mapM _) = some m
    rw [hmembers, hread, Option.map_some, ofList_entries]

end Metadata

instance : Plain EntryData where
  ofJson?_reread d := by
    unfold toJson ofJson? instJsonCodecEntryData
    dsimp only
    rw [record?_reread (by rfl) (by decide)]
    simp [-Option.bind_eq_bind]

instance : Plain EventData where
  ofJson?_reread d := by
    unfold toJson ofJson? EventData.instJsonCodec
    dsimp only
    rw [record?_reread (by rfl) (by decide)]
    simp [-Option.bind_eq_bind]

instance : Plain CallData where
  ofJson?_reread d := by
    unfold toJson ofJson? CallData.instJsonCodec
    dsimp only
    rw [record?_reread (by rfl) (by decide)]
    simp [-Option.bind_eq_bind]

instance : Plain MacroData where
  ofJson?_reread d := by
    unfold toJson ofJson? instJsonCodecMacroData
    dsimp only
    rw [record?_reread (by rfl) (by decide)]
    simp [-Option.bind_eq_bind]

/-! ## Kinds -/

namespace NodeKind

instance : HasScalars NodeKind where
  scalars
    | makeArray _ count => scalars count
    | _ => []

theorem ofJson?_tagged {tag : String} (h : ofBare? tag = none) (payload : Json) :
    (ofJson? (Json.tagged tag payload).reread : Option NodeKind) =
      ofPayload? tag payload.reread := by
  have hread : (Json.tagged tag payload).reread = .obj [(tag, payload.reread)] := rfl
  rw [hread]
  generalize payload.reread = j
  unfold ofJson? instJsonCodec
  simp only [variant?, h]

theorem ofJson?_of_plain {α : Type} [JsonCodec α] [Plain α] {tag : String} {f : α → NodeKind}
    (hbare : ofBare? tag = none) (hpayload : ∀ j, ofPayload? tag j = (ofJson? j).map f) (a : α) :
    (ofJson? (Json.tagged tag (toJson a)).reread : Option NodeKind) = some (f a) := by
  rw [ofJson?_tagged hbare, hpayload, Plain.ofJson?_reread, Option.map_some]

/-- A kind that is no array is read back. -/
theorem ofJson?_of_scalars {kind : NodeKind} (h : scalars kind = []) :
    ofJson? (toJson kind).reread = some kind := by
  cases kind with
  | functionEntry data => exact ofJson?_of_plain rfl (fun _ ↦ rfl) data
  | functionResult => rfl
  | event data => exact ofJson?_of_plain rfl (fun _ ↦ rfl) data
  | callFunction data => exact ofJson?_of_plain rfl (fun _ ↦ rfl) data
  | variableGet var => exact ofJson?_of_plain rfl (fun _ ↦ rfl) var
  | variableSet var => exact ofJson?_of_plain rfl (fun _ ↦ rfl) var
  | temporaryVariable ty => exact ofJson?_of_plain rfl (fun _ ↦ rfl) ty
  | branch => rfl
  | knot ty => exact ofJson?_of_plain rfl (fun _ ↦ rfl) ty
  | makeArray element count => cases h
  | macroInstance data => exact ofJson?_of_plain rfl (fun _ ↦ rfl) data
  | tunnel entry => exact ofJson?_tagged rfl (.obj [("entry", toJson entry)])
  | timeline name => exact ofJson?_tagged rfl (.obj [("timeline", toJson name)])
  | comment text => exact ofJson?_tagged rfl (.obj [("text", toJson text)])

instance : Rereads NodeKind where
  ofJson?_reread {kind} h := by
    by_cases hscalars : scalars kind = []
    · have hfinite : Scalar.AllFinite (scalars kind) := hscalars ▸ Scalar.allFinite_nil
      rw [ofJson?_of_scalars hscalars, if_pos hfinite]
    · cases kind with
      | makeArray element count =>
        have hcount := Rereads.ofJson?_reread (a := count) h
        change ofJson? (Json.tagged "MakeArray" (.obj [
          ("element", toJson element), ("count", toJson count)])).reread = _
        rw [ofJson?_tagged rfl, ofPayload?, record?_reread (by rfl) (by decide)]
        simp [-Option.bind_eq_bind, hcount]
        rfl
      | _ => exact absurd rfl hscalars

end NodeKind

/-! ## Nodes and pins -/

theorem rereads_index {n : Nat} (h : Scalar.AllKept [.index n]) :
    (Json.nat n).reread.natural? 32 = some n := by
  have hn : n < UInt32.size := (Scalar.allKept_singleton.1 h).1
  have hsize : UInt32.size < UInt64.size := by decide
  rw [Json.reread_nat (by omega), Json.natural?_nat hn]

instance : HasScalars NodeId := ⟨fun n ↦ [.index n.index]⟩

instance : Rereads NodeId where
  ofJson?_reread {n} h := by
    have hfinite : Scalar.AllFinite (scalars n) := Scalar.allFinite_singleton.2 rfl
    rw [if_pos hfinite]
    exact congrArg (Option.map NodeId.mk) (rereads_index h)

instance : HasScalars PinId := ⟨fun p ↦ [.index p.index]⟩

instance : Rereads PinId where
  ofJson?_reread {p} h := by
    have hfinite : Scalar.AllFinite (scalars p) := Scalar.allFinite_singleton.2 rfl
    rw [if_pos hfinite]
    exact congrArg (Option.map PinId.mk) (rereads_index h)

instance : HasScalars Pin := ⟨fun p ↦ scalars p.id ++ (scalars p.owner ++ scalars p.links)⟩

instance : NonNull Pin := ⟨fun _ ↦ nofun⟩

instance : Rereads Pin where
  ofJson?_reread {p} h := by
    have hscalars : scalars p = scalars p.id ++ (scalars p.owner ++ scalars p.links) := rfl
    rw [hscalars] at h
    unfold toJson ofJson? Pin.instJsonCodec
    dsimp only
    rw [record?_reread (by rfl) (by decide)]
    simp only [Scalar.allKept_append] at h
    simp [-Option.bind_eq_bind, hscalars, Rereads.ofJson?_reread, h]

instance : HasScalars Position := ⟨fun p ↦ [.coordinate p.x, .coordinate p.y]⟩

instance : Rereads Position where
  ofJson?_reread {p} h := by
    have hscalars : scalars p = [.coordinate p.x] ++ [.coordinate p.y] := rfl
    have hfinite : Scalar.AllFinite (scalars p) := by
      rw [hscalars, Scalar.allFinite_append]
      exact ⟨Scalar.allFinite_singleton.2 rfl, Scalar.allFinite_singleton.2 rfl⟩
    rw [hscalars, Scalar.allKept_append, Scalar.allKept_singleton, Scalar.allKept_singleton] at h
    obtain ⟨⟨⟨hxlow, hxhigh⟩, -⟩, ⟨hylow, hyhigh⟩, -⟩ := h
    rw [if_pos hfinite]
    unfold toJson ofJson? Position.instJsonCodec
    dsimp only
    rw [record?_reread (by rfl) (by decide)]
    simp [-Option.bind_eq_bind, signed?_int hxlow hxhigh, signed?_int hylow hyhigh]

instance : HasScalars Node :=
  ⟨fun n ↦ scalars n.id ++ (scalars n.kind ++ (scalars n.pins ++ scalars n.position))⟩

instance : NonNull Node := ⟨fun _ ↦ nofun⟩

instance : Rereads Node where
  ofJson?_reread {n} h := by
    have hscalars : scalars n =
        scalars n.id ++ (scalars n.kind ++ (scalars n.pins ++ scalars n.position)) := rfl
    rw [hscalars] at h
    unfold toJson ofJson? Node.instJsonCodec
    dsimp only
    rw [record?_reread (by rfl) (by decide)]
    simp only [Scalar.allKept_append] at h
    simp [-Option.bind_eq_bind, hscalars, Rereads.ofJson?_reread, h]

/-! ## Graphs -/

instance {α : Type} [HasScalars α] : HasScalars (Slots α) := ⟨fun s ↦ scalars s.cells.toList⟩

instance {α : Type} [JsonCodec α] [HasScalars α] [Rereads α] [NonNull α] : Rereads (Slots α) where
  ofJson?_reread {s} h := by
    have hcells := Rereads.ofJson?_reread (a := s.cells.toList) h
    change Option.map _ (ofJson? (toJson s.cells.toList).reread : Option (List (Option α))) = _
    rw [hcells, map_kept]
    rfl

instance : HasScalars Graph :=
  ⟨fun g ↦ scalars g.nodes ++ (scalars g.pins ++ scalars g.order)⟩

instance : Rereads Graph where
  ofJson?_reread {g} h := by
    have hscalars : scalars g = scalars g.nodes ++ (scalars g.pins ++ scalars g.order) := rfl
    rw [hscalars] at h
    unfold toJson ofJson? instJsonCodecGraph
    dsimp only
    rw [record?_reread (by rfl) (by decide)]
    simp only [Scalar.allKept_append] at h
    simp [-Option.bind_eq_bind, hscalars, Rereads.ofJson?_reread, h]

end VisualScript
