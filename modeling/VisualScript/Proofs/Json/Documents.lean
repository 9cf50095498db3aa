import VisualScript.Proofs.Json.Numbers
import VisualScript.Json.Reader
import VisualScript.Json.Writer

/-!
# Documents that are written and read

The text of a document is read back as the document, but for numbers, which are read as their
texts say, and for what stands for no value, which is written as null.  Arrays and objects must
not nest deeper than the reader goes.

A written string is read back character by character: each is one piece, and a numbered unit is
written for no more than some controls, so that no pair of units is taken for one character.
-/

namespace VisualScript.Json

/-! ## Strings -/

section Strings

open Text

/-- Whether a control has no escape of two characters. -/
def isNumbered (c : Char) : Bool :=
  c.toNat < 0x20 && c ∉ ['\n', '\r', '\t', '\x08', '\x0c']

/-- What a character is read as. -/
def pieceOf (c : Char) : Piece := if isNumbered c then .unit c.toNat else .char c

/-- The escapes of controls have four digits. -/
theorem escapeChar_of_isNumbered {c : Char} (h : isNumbered c = true) :
    ∃ x y z w, escapeChar c = ['\\', 'u', x, y, z, w] ∧ hex4? x y z w = some c.toNat := by
  have hall : ∀ n < 0x20, isNumbered (Char.ofNat n) = true →
      (escapeChar (Char.ofNat n)).length = 6 ∧
        (escapeChar (Char.ofNat n)).take 2 = ['\\', 'u'] ∧
          hexNumber? ((escapeChar (Char.ofNat n)).drop 2) = some n := by decide
  have hlt : c.toNat < 0x20 := by
    rw [isNumbered, Bool.and_eq_true, decide_eq_true_eq] at h
    exact h.1
  obtain ⟨hlength, hfront, hdigits⟩ := hall c.toNat hlt (by rwa [Char.ofNat_toNat])
  rw [Char.ofNat_toNat] at hlength hfront hdigits
  generalize escapeChar c = s at hlength hfront hdigits
  match s, hlength with
  | [a, b, x, y, z, w], _ =>
    obtain ⟨rfl, rfl⟩ : a = '\\' ∧ b = 'u' := by simpa using hfront
    exact ⟨x, y, z, w, rfl, hdigits⟩

/-- Other characters stand as they are. -/
theorem pieces_plain {c : Char} (hquote : c ≠ '"') (hbackslash : c ≠ '\\') (h : 0x20 ≤ c.toNat)
    (acc : List Piece) (rest : List Char) :
    pieces acc (c :: rest) = pieces (.char c :: acc) rest := by
  rw [pieces.eq_def]
  split
  · next heq => cases heq
  · next heq => exact absurd (List.cons.inj heq).1 hquote
  · next heq => exact absurd (List.cons.inj heq).1 hbackslash
  · next heq => exact absurd (List.cons.inj heq).1 hbackslash
  · next heq =>
    obtain ⟨rfl, rfl⟩ := List.cons.inj heq
    exact if_neg (not_or.2 ⟨Nat.not_lt.2 h, hbackslash⟩)

/-- A written character is one piece. -/
theorem pieces_escapeChar (c : Char) (acc : List Piece) (rest : List Char) :
    pieces acc (escapeChar c ++ rest) = pieces (pieceOf c :: acc) rest := by
  by_cases hnumbered : isNumbered c = true
  · obtain ⟨x, y, z, w, hescape, hvalue⟩ := escapeChar_of_isNumbered hnumbered
    rw [hescape, pieceOf, if_pos hnumbered]
    simp only [List.cons_append, List.nil_append, pieces, hvalue]
    rfl
  · rw [pieceOf, if_neg hnumbered]
    unfold escapeChar
    split
    case h_8 hquote hbackslash hn hr ht hb hf =>
      have hvisible : 0x20 ≤ c.toNat := by
        refine Nat.le_of_not_lt fun hlt ↦ hnumbered ?_
        simp only [isNumbered, hlt, decide_true, Bool.true_and, decide_eq_true_eq, List.mem_cons,
          List.not_mem_nil, or_false, not_or]
        exact ⟨hn, hr, ht, hb, hf⟩
      rw [if_neg (by omega), if_neg (by omega)]
      exact pieces_plain hquote hbackslash hvisible acc rest
    all_goals rfl

/-- A control is no half of a pair. -/
theorem joinPieces_pieceOf (c : Char) (acc : List Char) (ps : List Piece) :
    joinPieces acc (pieceOf c :: ps) = joinPieces (c :: acc) ps := by
  unfold pieceOf
  split
  · next hnumbered =>
    have hlt : c.toNat < 0x20 := by
      rw [isNumbered, Bool.and_eq_true, decide_eq_true_eq] at hnumbered
      exact hnumbered.1
    have hhigh : isHighSurrogate c.toNat = false := by
      simp only [isHighSurrogate, Bool.and_eq_false_iff, decide_eq_false_iff_not]
      omega
    have hlow : isLowSurrogate c.toNat = false := by
      simp only [isLowSurrogate, Bool.and_eq_false_iff, decide_eq_false_iff_not]
      omega
    cases ps with
    | nil => simp [joinPieces, hhigh, hlow, Char.ofNat_toNat]
    | cons p ps => cases p <;> simp [joinPieces, hhigh, hlow, Char.ofNat_toNat]
  · rfl

theorem pieces_escaped (s : List Char) (acc : List Piece) (rest : List Char) :
    pieces acc (s.flatMap escapeChar ++ '"' :: rest) =
      some (acc.reverse ++ s.map pieceOf, rest) := by
  induction s generalizing acc with
  | nil => simp [pieces]
  | cons c s ih =>
    rw [List.flatMap_cons, List.append_assoc, pieces_escapeChar, ih]
    simp

theorem joinPieces_map (s acc : List Char) :
    joinPieces acc (s.map pieceOf) = some (acc.reverse ++ s) := by
  induction s generalizing acc with
  | nil => simp [joinPieces]
  | cons c s ih =>
    rw [List.map_cons, joinPieces_pieceOf, ih]
    simp

/-- A written string is read back. -/
theorem quoted_writeString (s : String) (rest : List Char) :
    quoted (s.toList.flatMap escapeChar ++ '"' :: rest) = some (some s, rest) := by
  rw [quoted, pieces_escaped]
  simp [joinPieces_map]

end Strings

/-! ## What a document is read as -/

mutual

/-- What the text of a document is read as. -/
def reread : Json → Json
  | .num n => .num n.reread
  | .arr xs => .arr (rereadItems xs)
  | .obj ms => .obj (rereadMembers ms)
  | .illegible => .null
  | .null => .null
  | .bool b => .bool b
  | .str s => .str s

def rereadItems : List Json → List Json
  | [] => []
  | x :: xs => x.reread :: rereadItems xs

def rereadMembers : List (String × Json) → List (String × Json)
  | [] => []
  | (k, x) :: ms => (k, x.reread) :: rereadMembers ms

end

mutual

/-- How many arrays and objects stand inside each other. -/
def nesting : Json → Nat
  | .arr xs => itemsNesting xs + 1
  | .obj ms => membersNesting ms + 1
  | _ => 0

def itemsNesting : List Json → Nat
  | [] => 0
  | x :: xs => max x.nesting (itemsNesting xs)

def membersNesting : List (String × Json) → Nat
  | [] => 0
  | (_, x) :: ms => max x.nesting (membersNesting ms)

end

/-! ## Blanks -/

/-- Blanks between the parts of a document. -/
def AllSpace (ws : List Char) : Prop := ∀ c ∈ ws, isSpace c = true

theorem allSpace_lineBreak (level : Nat) : AllSpace (lineBreak level).toList := by
  intro c hc
  rw [lineBreak, String.toList_ofList] at hc
  rcases List.mem_cons.1 hc with rfl | hc
  · rfl
  · rw [List.eq_of_mem_replicate hc]
    rfl

theorem skipSpace_append {ws : List Char} (h : AllSpace ws) (s : List Char) :
    skipSpace (ws ++ s) = skipSpace s :=
  List.dropWhile_append_of_pos h

theorem skipSpace_cons {c : Char} (h : isSpace c = false) (s : List Char) :
    skipSpace (c :: s) = c :: s :=
  List.dropWhile_cons_of_neg (by simp [h])

theorem stops_space {ws : List Char} (h : AllSpace ws) {s : List Char} (hs : Stops s) :
    Stops (ws ++ s) := by
  cases ws with
  | nil => exact hs
  | cons c ws =>
    intro d hd
    obtain rfl := Option.some.inj hd
    have hc := h c List.mem_cons_self
    simp only [isSpace, Bool.or_eq_true, decide_eq_true_eq] at hc
    rcases hc with ((rfl | rfl) | rfl) | rfl <;> decide

section Steps

attribute [local simp] value items members

theorem value_space {ws : List Char} (h : AllSpace ws) (fuel depth : Nat) (s : List Char) :
    value fuel depth (ws ++ s) = value fuel depth s := by
  cases fuel with
  | zero => rfl
  | succ fuel => rw [value, value, skipSpace_append h]

theorem items_space {ws : List Char} (h : AllSpace ws) (fuel depth : Nat) (s : List Char) :
    items fuel depth (ws ++ s) = items fuel depth s := by
  cases fuel with
  | zero => rfl
  | succ fuel => rw [items, items, value_space h]

theorem members_space {ws : List Char} (h : AllSpace ws) (fuel depth : Nat) (s : List Char) :
    members fuel depth (ws ++ s) = members fuel depth s := by
  cases fuel with
  | zero => rfl
  | succ fuel => rw [members, members, skipSpace_append h]

/-! ## Values -/

theorem isSpace_of_number {c : Char} (hc : c = '-' ∨ c.isDigit = true) : isSpace c = false := by
  rw [Bool.eq_false_iff]
  intro hspace
  simp only [isSpace, Bool.or_eq_true, decide_eq_true_eq] at hspace
  rcases hspace with ((rfl | rfl) | rfl) | rfl <;> exact absurd hc (by decide)

theorem value_of_number {c : Char} {s : List Char} (hc : c = '-' ∨ c.isDigit = true)
    {fuel : Nat} (hfuel : 0 < fuel) (depth : Nat) :
    value fuel depth (c :: s) = (number (c :: s)).map fun (n, rest) ↦ (.num n, rest) := by
  obtain ⟨fuel, rfl⟩ := Nat.exists_eq_add_one_of_ne_zero (Nat.ne_of_gt hfuel)
  have hspace := isSpace_of_number hc
  rw [value, skipSpace_cons hspace]
  split
  case h_7 => rfl
  all_goals
    next heq =>
    obtain ⟨rfl, rfl⟩ := List.cons.inj heq
    exact absurd hc (by decide)

theorem value_write (n : Number) {rest : List Char} (hrest : Stops rest) {fuel : Nat}
    (hfuel : 0 < fuel) (depth : Nat) :
    value fuel depth (n.write.toList ++ rest) = some (.num n.reread, rest) := by
  have hread := number_write n hrest
  obtain ⟨c, s, hs, hc⟩ := (readsNumber_write n).head
  rw [hs, List.cons_append] at hread ⊢
  rw [value_of_number hc hfuel, hread]
  rfl

theorem toList_writeString (s : String) :
    (writeString s).toList = '"' :: (s.toList.flatMap escapeChar ++ ['"']) := by
  rw [writeString, String.toList_ofList]
  rfl

theorem value_writeString (s : String) (rest : List Char) {fuel : Nat} (hfuel : 0 < fuel)
    (depth : Nat) : value fuel depth ((writeString s).toList ++ rest) = some (.str s, rest) := by
  obtain ⟨fuel, rfl⟩ := Nat.exists_eq_add_one_of_ne_zero (Nat.ne_of_gt hfuel)
  have hread := quoted_writeString s rest
  rw [toList_writeString, List.cons_append, List.append_assoc, List.singleton_append, value,
    skipSpace_cons rfl]
  simp only [hread]
  rfl

/-! ## Texts -/

/-- Lines of items, one below the other. -/
def itemsText (level : Nat) (xs : List Json) : List Char :=
  (("," ++ lineBreak level).intercalate (indentedItems level xs)).toList

/-- Lines of members, one below the other. -/
def membersText (level : Nat) (ms : List (String × Json)) : List Char :=
  (("," ++ lineBreak level).intercalate (indentedMembers level ms)).toList

theorem itemsText_singleton (level : Nat) (x : Json) :
    itemsText level [x] = (indented level x).toList := by
  rw [itemsText, indentedItems, indentedItems, String.intercalate_singleton]

theorem itemsText_cons (level : Nat) (x y : Json) (xs : List Json) :
    itemsText level (x :: y :: xs) = (indented level x).toList ++
      ',' :: ((lineBreak level).toList ++ itemsText level (y :: xs)) := by
  simp only [itemsText, indentedItems, String.intercalate_cons_cons, String.toList_append]
  simp

theorem membersText_singleton (level : Nat) (k : String) (x : Json) :
    membersText level [(k, x)] =
      (writeString k).toList ++ ':' :: ' ' :: (indented level x).toList := by
  simp only [membersText, indentedMembers, String.intercalate_singleton, String.toList_append]
  simp

theorem membersText_cons (level : Nat) (k : String) (x : Json) (m : String × Json)
    (ms : List (String × Json)) :
    membersText level ((k, x) :: m :: ms) =
      (writeString k).toList ++ ':' :: ' ' :: ((indented level x).toList ++
        ',' :: ((lineBreak level).toList ++ membersText level (m :: ms))) := by
  simp only [membersText, indentedMembers, String.intercalate_cons_cons, String.toList_append]
  simp

theorem toList_arr (level : Nat) (x : Json) (xs : List Json) :
    (indented level (.arr (x :: xs))).toList = '[' :: ((lineBreak (level + 1)).toList ++
      (itemsText (level + 1) (x :: xs) ++ ((lineBreak level).toList ++ [']']))) := by
  simp only [indented, indentedItems, bracketed, String.toList_append, itemsText]
  simp

theorem toList_obj (level : Nat) (m : String × Json) (ms : List (String × Json)) :
    (indented level (.obj (m :: ms))).toList = '\x7b' :: ((lineBreak (level + 1)).toList ++
      (membersText (level + 1) (m :: ms) ++ ((lineBreak level).toList ++ ['\x7d']))) := by
  obtain ⟨k, x⟩ := m
  simp only [indented, indentedMembers, bracketed, String.toList_append, membersText]
  simp

/-- A value begins with neither a blank nor a closing bracket. -/
theorem head_indented (level : Nat) (j : Json) :
    ∃ c t, (indented level j).toList = c :: t ∧ isSpace c = false ∧ c ≠ ']' := by
  cases j with
  | null => exact ⟨'n', ['u', 'l', 'l'], by simp [indented], rfl, by decide⟩
  | illegible => exact ⟨'n', ['u', 'l', 'l'], by simp [indented], rfl, by decide⟩
  | bool b =>
    cases b with
    | true => exact ⟨'t', ['r', 'u', 'e'], by simp [indented], rfl, by decide⟩
    | false => exact ⟨'f', ['a', 'l', 's', 'e'], by simp [indented], rfl, by decide⟩
  | num n =>
    obtain ⟨c, t, hn, hc⟩ := (readsNumber_write n).head
    refine ⟨c, t, hn, isSpace_of_number hc, ?_⟩
    rintro rfl
    exact absurd hc (by decide)
  | str s => exact ⟨'"', _, toList_writeString s, rfl, by decide⟩
  | arr xs =>
    cases xs with
    | nil => exact ⟨'[', [']'], by simp [indented, indentedItems, bracketed], rfl, by decide⟩
    | cons x xs => exact ⟨'[', _, toList_arr level x xs, rfl, by decide⟩
  | obj ms =>
    cases ms with
    | nil =>
      exact ⟨'\x7b', ['\x7d'], by simp [indented, indentedMembers, bracketed], rfl, by decide⟩
    | cons m ms => exact ⟨'\x7b', _, toList_obj level m ms, rfl, by decide⟩

theorem head_itemsText (level : Nat) (x : Json) (xs : List Json) :
    ∃ c t, itemsText level (x :: xs) = c :: t ∧ isSpace c = false ∧ c ≠ ']' := by
  obtain ⟨c, t, hx, hspace, hclose⟩ := head_indented level x
  cases xs with
  | nil => exact ⟨c, t, (itemsText_singleton level x).trans hx, hspace, hclose⟩
  | cons y xs =>
    rw [itemsText_cons, hx]
    exact ⟨c, _, rfl, hspace, hclose⟩

theorem head_membersText (level : Nat) (m : String × Json) (ms : List (String × Json)) :
    ∃ t, membersText level (m :: ms) = '"' :: t := by
  obtain ⟨k, x⟩ := m
  cases ms with
  | nil =>
    rw [membersText_singleton, toList_writeString]
    exact ⟨_, rfl⟩
  | cons m ms =>
    rw [membersText_cons, toList_writeString]
    exact ⟨_, rfl⟩

/-! ## Reading what is written -/

theorem stops_of_mem {c : Char} (h : c ∈ [',', ']', '\x7d']) (s : List Char) : Stops (c :: s) := by
  intro d hd
  obtain rfl := Option.some.inj hd
  simp only [List.mem_cons, List.not_mem_nil, or_false] at h
  rcases h with rfl | rfl | rfl <;> decide

/-- An array that is not empty holds the items up to its closing bracket. -/
theorem value_arr {c : Char} {t ws : List Char} (hws : AllSpace ws) (hspace : isSpace c = false)
    (hclose : c ≠ ']') (fuel depth : Nat) :
    value (fuel + 1) depth ('[' :: (ws ++ c :: t)) =
      (items fuel (depth - 1) (c :: t)).map fun (xs, rest) ↦ (within depth (.arr xs), rest) := by
  rw [value, skipSpace_cons rfl]
  simp only [skipSpace_append hws, skipSpace_cons hspace]
  split
  · next heq => exact absurd (List.cons.inj heq).1 hclose
  · rfl

/-- An object that is not empty holds the members up to its closing brace. -/
theorem value_obj {t ws : List Char} (hws : AllSpace ws) (fuel depth : Nat) :
    value (fuel + 1) depth ('\x7b' :: (ws ++ '"' :: t)) =
      (members fuel (depth - 1) ('"' :: t)).map fun (ms, rest) ↦
        (within depth (object ms), rest) := by
  rw [value, skipSpace_cons rfl]
  simp only [skipSpace_append hws, skipSpace_cons (c := '"') rfl]
  rfl

theorem within_of_lt {depth n : Nat} (h : n < depth) (j : Json) : within depth j = j :=
  if_neg (by omega)

/-- Values without parts are read in one step. -/
theorem value_leaf (fuel depth level : Nat) (rest : List Char) :
    value (fuel + 1) depth ((indented level .null).toList ++ rest) = some (.null, rest) ∧
      ∀ b, value (fuel + 1) depth ((indented level (.bool b)).toList ++ rest) =
        some (.bool b, rest) := by
  refine ⟨by simp [indented, skipSpace, isSpace], fun b ↦ ?_⟩
  cases b <;> simp [indented, skipSpace, isSpace]

theorem value_nil {depth : Nat} (hdepth : 0 < depth) (fuel level : Nat) (rest : List Char) :
    value (fuel + 1) depth ((indented level (.arr [])).toList ++ rest) = some (.arr [], rest) ∧
      value (fuel + 1) depth ((indented level (.obj [])).toList ++ rest) =
        some (.obj [], rest) := by
  simp [indented, indentedItems, indentedMembers, bracketed, skipSpace, isSpace,
    within_of_lt hdepth]

/-- The first item is read before the others. -/
theorem items_cons {fuel depth : Nat} {s ws rest : List Char} {x : Json} {xs : List Json}
    (hws : AllSpace ws) (hx : value fuel depth s = some (x, ',' :: (ws ++ rest)))
    {rest' : List Char} (hxs : items fuel depth rest = some (xs, rest')) :
    items (fuel + 1) depth s = some (x :: xs, rest') := by
  simp only [items, hx, Option.bind_eq_bind, Option.bind_some, skipSpace_cons (c := ',') rfl,
    items_space hws, hxs, Option.map_some]

theorem items_singleton {fuel depth : Nat} {s ws rest : List Char} {x : Json}
    (hws : AllSpace ws) (hx : value fuel depth s = some (x, ws ++ ']' :: rest)) :
    items (fuel + 1) depth s = some ([x], rest) := by
  simp only [items, hx, Option.bind_eq_bind, Option.bind_some, skipSpace_append hws,
    skipSpace_cons (c := ']') rfl]

theorem members_cons {fuel depth : Nat} {s ws rest : List Char} {k : String} {x : Json}
    {ms : List (String × Json)} (hws : AllSpace ws)
    (hx : value fuel depth s = some (x, ',' :: (ws ++ rest))) {rest' : List Char}
    (hms : members fuel depth rest = some (some ms, rest')) :
    members (fuel + 1) depth ((writeString k).toList ++ ':' :: ' ' :: s) =
      some (some ((k, x) :: ms), rest') := by
  have hspace : AllSpace [' '] := by
    intro c hc
    rw [List.mem_singleton.1 hc]
    rfl
  have hvalue : value fuel depth (' ' :: s) = some (x, ',' :: (ws ++ rest)) := by
    rw [← hx]
    exact value_space hspace fuel depth s
  rw [toList_writeString, List.cons_append, List.append_assoc, List.singleton_append, members,
    skipSpace_cons rfl]
  simp only [quoted_writeString, Option.bind_eq_bind, Option.bind_some, hvalue,
    skipSpace_cons (c := ':') rfl, skipSpace_cons (c := ',') rfl, members_space hws, hms]
  rfl

theorem members_singleton {fuel depth : Nat} {s ws rest : List Char} {k : String} {x : Json}
    (hws : AllSpace ws) (hx : value fuel depth s = some (x, ws ++ '\x7d' :: rest)) :
    members (fuel + 1) depth ((writeString k).toList ++ ':' :: ' ' :: s) =
      some (some [(k, x)], rest) := by
  have hspace : AllSpace [' '] := by
    intro c hc
    rw [List.mem_singleton.1 hc]
    rfl
  have hvalue : value fuel depth (' ' :: s) = some (x, ws ++ '\x7d' :: rest) := by
    rw [← hx]
    exact value_space hspace fuel depth s
  rw [toList_writeString, List.cons_append, List.append_assoc, List.singleton_append, members,
    skipSpace_cons rfl]
  simp only [quoted_writeString, Option.bind_eq_bind, Option.bind_some, hvalue,
    skipSpace_cons (c := ':') rfl, skipSpace_append hws, skipSpace_cons (c := '\x7d') rfl]
  rfl

end Steps

/-- What is written is read back in so many steps. -/
structure ReadsBack (fuel : Nat) : Prop where
  value {j : Json} {level depth : Nat} {rest : List Char}
    (hfuel : 2 * (indented level j).toList.length ≤ fuel) (hdepth : j.nesting ≤ depth)
    (hrest : Stops rest) :
    value fuel depth ((indented level j).toList ++ rest) = some (j.reread, rest)
  items {x : Json} {xs : List Json} {level depth : Nat} {ws : List Char}
    (hfuel : 2 * (itemsText level (x :: xs)).length < fuel)
    (hdepth : itemsNesting (x :: xs) ≤ depth) (hws : AllSpace ws) (rest : List Char) :
    items fuel depth (itemsText level (x :: xs) ++ (ws ++ ']' :: rest)) =
      some (rereadItems (x :: xs), rest)
  members {m : String × Json} {ms : List (String × Json)} {level depth : Nat}
    {ws : List Char} (hfuel : 2 * (membersText level (m :: ms)).length < fuel)
    (hdepth : membersNesting (m :: ms) ≤ depth) (hws : AllSpace ws) (rest : List Char) :
    members fuel depth (membersText level (m :: ms) ++ (ws ++ '\x7d' :: rest)) =
      some (some (rereadMembers (m :: ms)), rest)

namespace ReadsBack

variable {fuel level depth : Nat} (h : ReadsBack fuel)
include h

theorem value_step {j : Json} {rest : List Char}
    (hfuel : 2 * (indented level j).toList.length ≤ fuel + 1) (hdepth : j.nesting ≤ depth)
    (hrest : Stops rest) :
    Json.value (fuel + 1) depth ((indented level j).toList ++ rest) = some (j.reread, rest) := by
  cases j with
  | null =>
    rw [reread]
    exact (value_leaf fuel depth level rest).1
  | illegible =>
    rw [reread]
    exact (value_leaf fuel depth level rest).1
  | bool b =>
    rw [reread]
    exact (value_leaf fuel depth level rest).2 b
  | num n =>
    rw [reread, indented]
    exact value_write n hrest (Nat.succ_pos fuel) depth
  | str s =>
    rw [reread, indented]
    exact value_writeString s rest (Nat.succ_pos fuel) depth
  | arr xs =>
    rw [nesting] at hdepth
    cases xs with
    | nil =>
      rw [reread, rereadItems]
      exact (value_nil (by omega) fuel level rest).1
    | cons x xs =>
      obtain ⟨c, t, hitems, hspace, hclose⟩ := head_itemsText (level + 1) x xs
      rw [toList_arr] at hfuel ⊢
      simp only [List.length_cons, List.length_append] at hfuel
      have hlength : 2 * (itemsText (level + 1) (x :: xs)).length < fuel := by omega
      have hread := h.items hlength (by omega : _ ≤ depth - 1) (allSpace_lineBreak level) rest
      rw [List.cons_append, List.append_assoc, List.append_assoc, List.append_assoc,
        List.singleton_append, hitems, List.cons_append,
        value_arr (allSpace_lineBreak _) hspace hclose, ← List.cons_append, ← hitems, hread,
        Option.map_some]
      dsimp only
      rw [within_of_lt (Nat.lt_of_lt_of_le (Nat.succ_pos _) hdepth), reread]
  | obj ms =>
    rw [nesting] at hdepth
    cases ms with
    | nil =>
      rw [reread, rereadMembers]
      exact (value_nil (by omega) fuel level rest).2
    | cons m ms =>
      obtain ⟨t, hmembers⟩ := head_membersText (level + 1) m ms
      rw [toList_obj] at hfuel ⊢
      simp only [List.length_cons, List.length_append] at hfuel
      have hlength : 2 * (membersText (level + 1) (m :: ms)).length < fuel := by omega
      have hread := h.members hlength (by omega : _ ≤ depth - 1) (allSpace_lineBreak level) rest
      rw [List.cons_append, List.append_assoc, List.append_assoc, List.append_assoc,
        List.singleton_append, hmembers, List.cons_append, value_obj (allSpace_lineBreak _),
        ← List.cons_append, ← hmembers, hread, Option.map_some]
      dsimp only
      rw [within_of_lt (Nat.lt_of_lt_of_le (Nat.succ_pos _) hdepth), reread]
      rfl

theorem items_step {x : Json} {xs : List Json} {ws : List Char}
    (hfuel : 2 * (itemsText level (x :: xs)).length < fuel + 1)
    (hdepth : itemsNesting (x :: xs) ≤ depth) (hws : AllSpace ws) (rest : List Char) :
    Json.items (fuel + 1) depth (itemsText level (x :: xs) ++ (ws ++ ']' :: rest)) =
      some (rereadItems (x :: xs), rest) := by
  rw [itemsNesting, Nat.max_le] at hdepth
  obtain ⟨hx, hxs⟩ := hdepth
  cases xs with
  | nil =>
    rw [itemsText_singleton] at hfuel ⊢
    exact items_singleton hws
      (h.value (by omega) hx (stops_space hws (stops_of_mem (by simp) rest)))
  | cons y ys =>
    rw [itemsText_cons] at hfuel ⊢
    simp only [List.length_cons, List.length_append] at hfuel
    rw [List.append_assoc, List.cons_append, List.append_assoc]
    exact items_cons (allSpace_lineBreak level)
      (h.value (by omega) hx (stops_of_mem (by simp) _)) (h.items (by omega) hxs hws rest)

theorem members_step {m : String × Json} {ms : List (String × Json)} {ws : List Char}
    (hfuel : 2 * (membersText level (m :: ms)).length < fuel + 1)
    (hdepth : membersNesting (m :: ms) ≤ depth) (hws : AllSpace ws) (rest : List Char) :
    Json.members (fuel + 1) depth (membersText level (m :: ms) ++ (ws ++ '\x7d' :: rest)) =
      some (some (rereadMembers (m :: ms)), rest) := by
  obtain ⟨k, x⟩ := m
  rw [membersNesting, Nat.max_le] at hdepth
  obtain ⟨hx, hms⟩ := hdepth
  cases ms with
  | nil =>
    rw [membersText_singleton] at hfuel ⊢
    simp only [List.length_cons, List.length_append] at hfuel
    rw [List.append_assoc, List.cons_append, List.cons_append]
    exact members_singleton hws
      (h.value (by omega) hx (stops_space hws (stops_of_mem (by simp) rest)))
  | cons m ms =>
    rw [membersText_cons] at hfuel ⊢
    simp only [List.length_cons, List.length_append] at hfuel
    rw [List.append_assoc, List.cons_append, List.cons_append, List.append_assoc, List.cons_append,
      List.append_assoc]
    exact members_cons (allSpace_lineBreak level)
      (h.value (by omega) hx (stops_of_mem (by simp) _)) (h.members (by omega) hms hws rest)

end ReadsBack

/-- Two steps a character are enough to read a text back. -/
theorem readsBack (fuel : Nat) : ReadsBack fuel := by
  induction fuel with
  | zero =>
    refine ⟨fun {j level} _ _ hfuel _ _ ↦ ?_, fun hfuel ↦ ?_, fun hfuel ↦ ?_⟩
    · obtain ⟨c, t, hj, -⟩ := head_indented level j
      rw [hj, List.length_cons] at hfuel
      omega
    · exact absurd hfuel (Nat.not_lt_zero _)
    · exact absurd hfuel (Nat.not_lt_zero _)
  | succ fuel ih => exact ⟨ih.value_step, ih.items_step, ih.members_step⟩

/-! ## Whole texts -/

/-- The document that the whole text is, read by a reader that goes so deep. -/
def skimWithin? (limit : Nat) (text : String) : Option Json := do
  let s := text.toList
  let (v, rest) ← value (2 * s.length + 2) limit s
  if (skipSpace rest).isEmpty then some v else none

/-- The text of a document is read back. -/
theorem skimWithin?_pretty {limit : Nat} {j : Json} (h : j.nesting ≤ limit) :
    skimWithin? limit j.pretty = some j.reread := by
  have hread := (readsBack (2 * j.pretty.toList.length + 2)).value
    (Nat.le_add_right (2 * (indented 0 j).toList.length) 2) h stops_nil
  rw [List.append_nil] at hread
  change value _ limit j.pretty.toList = _ at hread
  simp only [skimWithin?, hread, Option.bind_eq_bind, Option.bind_some]
  rfl

end VisualScript.Json
