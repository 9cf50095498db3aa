import VisualScript.Proofs.Macros.Tunnels

/-!
# Empty arrays for unwired inputs

Every array input of an instance that is not wired gets one node that makes an empty
array.  Nothing else of the graph changes.
-/

namespace VisualScript

namespace Graph

/-- The array inputs of a node that are not wired. -/
def unlinkedArrays (g : Graph) (n : NodeId) : List PinId :=
  (g.filteredPins n .input false).filter fun p ↦
    (g.pin? p).any fun pin ↦ pin.ty.isArray && !pin.isLinked

/-- Whether a pin wants an array of its own. -/
def wantsArray (g : Graph) (p : PinId) : Bool :=
  (g.pin? p).any fun pin ↦ pin.ty.isArray && !pin.isLinked

/-- Adds a node that makes an empty array beside another node. -/
def spawnArray (g : Graph) (element : PinType) (beside : NodeId) : Graph :=
  (g.spawnIntermediate (.makeArray element 0)).2.placeLeftOf ⟨g.nodes.size⟩ beside

section Spawning

variable (g : Graph) (element : PinType) (beside : NodeId)

/-- The output of the new node. -/
def arrayOutput : Pin := {
  id := ⟨g.pins.size⟩, owner := ⟨g.nodes.size⟩, name := PinName.array, direction := .output
  ty := element.arrayOf }

theorem placeLeftOf_pins (n : NodeId) : (g.placeLeftOf n beside).pins = g.pins := by
  unfold placeLeftOf
  split <;> rfl

theorem placeLeftOf_order (n : NodeId) : (g.placeLeftOf n beside).order = g.order := by
  unfold placeLeftOf
  split <;> rfl

theorem node?_placeLeftOf (n m : NodeId) :
    ∃ position : Node → Position, (g.placeLeftOf n beside).node? m =
      if n = m then (g.node? m).map fun node ↦ { node with position := position node }
      else g.node? m := by
  unfold placeLeftOf
  split
  · next pos _ =>
    exact ⟨fun _ ↦ ⟨pos.x - SpawnGrid.nodeWidth, pos.y⟩, node?_modifyNode g n m _⟩
  · refine ⟨fun node ↦ node.position, ?_⟩
    split
    · cases g.node? m <;> rfl
    · rfl

theorem spawnArray_pins :
    (g.spawnArray element beside).pins = g.pins.push (g.arrayOutput element) :=
  placeLeftOf_pins _ _ _

theorem spawnArray_order :
    (g.spawnArray element beside).order = g.order ++ [⟨g.nodes.size⟩] :=
  placeLeftOf_order _ _ _

theorem spawnArray_nodes_size : (g.spawnArray element beside).nodes.size = g.nodes.size + 1 := by
  have hplace (g : Graph) (n : NodeId) : (g.placeLeftOf n beside).nodes.size = g.nodes.size := by
    unfold placeLeftOf
    split
    · exact Slots.size_modify _ _ _
    · rfl
  rw [spawnArray, hplace]
  refine (Slots.size_modify _ _ _).trans ((Slots.size_modify _ _ _).trans ?_)
  exact Slots.size_push _ _

theorem pin?_spawnArray (p : PinId) : (g.spawnArray element beside).pin? p =
    if p = ⟨g.pins.size⟩ then some (g.arrayOutput element) else g.pin? p := by
  obtain ⟨i⟩ := p
  rw [pin?, spawnArray_pins, Slots.get?_push]
  simp [pin?]

theorem node?_spawnArray (m : NodeId) : ∃ position, (g.spawnArray element beside).node? m =
    if m = ⟨g.nodes.size⟩ then
      some { id := ⟨g.nodes.size⟩, kind := .makeArray element 0, pins := [⟨g.pins.size⟩],
             position, isIntermediate := true }
    else g.node? m := by
  obtain ⟨position, hplaced⟩ :=
    node?_placeLeftOf (g.spawnIntermediate (.makeArray element 0)).2 beside ⟨g.nodes.size⟩ m
  have hspawned : (g.spawnIntermediate (.makeArray element 0)).2.node? m =
      if m = ⟨g.nodes.size⟩ then
        some { id := ⟨g.nodes.size⟩, kind := .makeArray element 0, pins := [⟨g.pins.size⟩],
               isIntermediate := true }
      else g.node? m := by
    obtain ⟨i⟩ := m
    by_cases hi : i = g.nodes.size
    · simp [spawnIntermediate, spawn, NodeKind.startingPins, allocPin, node?, modifyNode, hi]
    · simp [spawnIntermediate, spawn, NodeKind.startingPins, allocPin, node?, modifyNode, hi,
        Ne.symm hi]
  rw [hspawned] at hplaced
  by_cases hm : m = ⟨g.nodes.size⟩
  · rw [if_pos hm.symm, if_pos hm, Option.map_some] at hplaced
    exact ⟨_, hplaced.trans (if_pos hm).symm⟩
  · rw [if_neg (Ne.symm hm), if_neg hm] at hplaced
    exact ⟨.origin, hplaced.trans (if_neg hm).symm⟩

theorem findPin?_spawnArray :
    (g.spawnArray element beside).findPin? ⟨g.nodes.size⟩ PinName.array (some .output) =
      some ⟨g.pins.size⟩ := by
  obtain ⟨position, hnode⟩ := g.node?_spawnArray element beside ⟨g.nodes.size⟩
  rw [if_pos rfl] at hnode
  have hmatch : (g.spawnArray element beside).pinMatches PinName.array (some .output)
      ⟨g.pins.size⟩ = true := by
    rw [pinMatches, pin?_spawnArray, if_pos rfl]
    rfl
  rw [findPin?, pinsOf, hnode]
  exact List.find?_cons_of_pos hmatch

theorem linksOf_spawnArray (p : PinId) :
    (g.spawnArray element beside).linksOf p = g.linksOf p := by
  unfold linksOf
  rw [pin?_spawnArray]
  split
  · next hp =>
    rw [hp, pin?_fresh]
    rfl
  · rfl

theorem directionOf?_spawnArray :
    (g.spawnArray element beside).directionOf? ⟨g.pins.size⟩ = some .output := by
  rw [directionOf?, pin?_spawnArray, if_pos rfl]
  rfl

variable {g}

/-- A pin keeps its place unless it is the new one. -/
theorem pin?_spawnArray_of_some {p : PinId} {pin : Pin} (hpin : g.pin? p = some pin) :
    (g.spawnArray element beside).pin? p = some pin := by
  rw [pin?_spawnArray, if_neg, hpin]
  rintro rfl
  rw [pin?_fresh] at hpin
  cases hpin

theorem Linked.spawnArray (h : g.Linked) : (g.spawnArray element beside).Linked := by
  refine h.congr (fun p q hq ↦ ?_) fun p q hq ↦ ?_
  · rw [linksOf_spawnArray] at hq ⊢
    exact ⟨hq, h.symm hq⟩
  · rw [linksOf_spawnArray] at hq
    obtain ⟨pin, hpin, -⟩ := mem_linksOf.1 hq
    rw [end?, end?, pin?_spawnArray_of_some element beside hpin, hpin]

theorem feeds_spawnArray {p q : PinId} :
    (g.spawnArray element beside).Feeds p q ↔ g.Feeds p q := by
  rw [feeds_iff, feeds_iff, linksOf_spawnArray]
  refine and_congr_left fun hq ↦ ?_
  obtain ⟨pin, hpin, -⟩ := mem_linksOf.1 hq
  rw [directionOf?, directionOf?, pin?_spawnArray_of_some element beside hpin, hpin]

end Spawning

/-! ## What the arrays add -/

/-- The graph `g'` is `g` with one node that makes an empty array for each of `ps`. -/
structure WithArrays (g : Graph) (ps : List PinId) (g' : Graph) : Prop where
  wellFormed : g'.WellFormed
  linked : g'.Linked
  nodes_size : g'.nodes.size = g.nodes.size + ps.length
  pins_size : g'.pins.size = g.pins.size + ps.length
  order : g'.order = g.order ++ (List.range ps.length).map fun i ↦ ⟨g.nodes.size + i⟩
  nodes : ∀ n : NodeId, n.index < g.nodes.size → g'.node? n = g.node? n
  pins : ∀ p : PinId, p.index < g.pins.size →
    (g'.pin? p).map Pin.unwired = (g.pin? p).map Pin.unwired ∧ g'.defaultsOf? p = g.defaultsOf? p
  arrays : ∀ (i : Nat) (p : PinId), ps[i]? = some p → ∃ pin, g.pin? p = some pin ∧
    g'.kind? ⟨g.nodes.size + i⟩ = some (.makeArray pin.ty.element 0) ∧
    g'.pinsOf ⟨g.nodes.size + i⟩ = [⟨g.pins.size + i⟩] ∧
    g'.directionOf? ⟨g.pins.size + i⟩ = some .output
  feeds : ∀ p q : PinId, g'.Feeds p q ↔
    g.Feeds p q ∨ ∃ i, ps[i]? = some q ∧ p = ⟨g.pins.size + i⟩

theorem WithArrays.refl {g : Graph} (hwf : g.WellFormed) (hlinked : g.Linked) :
    WithArrays g [] g where
  wellFormed := hwf
  linked := hlinked
  nodes_size := rfl
  pins_size := rfl
  order := (List.append_nil _).symm
  nodes _ _ := rfl
  pins _ _ := ⟨rfl, rfl⟩
  arrays _ _ hi := by cases hi
  feeds _ _ := ⟨.inl, fun h ↦ h.elim id fun ⟨_, hi, _⟩ ↦ by cases hi⟩

theorem makeLink_sizes {g g' : Graph} {a b : PinId} (h : g.makeLink a b = .ok g') :
    g'.nodes.size = g.nodes.size ∧ g'.pins.size = g.pins.size := by
  obtain ⟨pa, pb, -, -, -, -, ⟨-, rfl⟩ | ⟨-, rfl⟩⟩ := makeLink_eq_ok h
  · exact ⟨rfl, rfl⟩
  · exact ⟨rfl, (Slots.size_modify _ _ _).trans (Slots.size_modify _ _ _)⟩

section Wired

variable {g g' : Graph} {element : PinType} {beside : NodeId} {p : PinId}
  (hlink : (g.spawnArray element beside).makeLink ⟨g.pins.size⟩ p = .ok g')
include hlink

theorem sizes_wiredArray :
    g'.nodes.size = g.nodes.size + 1 ∧ g'.pins.size = g.pins.size + 1 := by
  obtain ⟨hnodes, hpins⟩ := makeLink_sizes hlink
  rw [spawnArray_nodes_size] at hnodes
  rw [spawnArray_pins, Slots.size_push] at hpins
  exact ⟨hnodes, hpins⟩

theorem order_wiredArray : g'.order = g.order ++ [⟨g.nodes.size⟩] := by
  rw [(sameFaces_makeLink hlink).order, spawnArray_order]

theorem node?_wiredArray {m : NodeId} (hm : m.index < g.nodes.size) : g'.node? m = g.node? m := by
  obtain ⟨_, hm'⟩ := g.node?_spawnArray element beside m
  rw [if_neg] at hm'
  · rw [(sameFaces_makeLink hlink).nodes, hm']
  · rintro rfl
    exact Nat.lt_irrefl _ hm

/-- The array has one pin, which is an output. -/
theorem array_wiredArray : g'.kind? ⟨g.nodes.size⟩ = some (.makeArray element 0) ∧
    g'.pinsOf ⟨g.nodes.size⟩ = [⟨g.pins.size⟩] ∧
      g'.directionOf? ⟨g.pins.size⟩ = some .output := by
  have hfaces := sameFaces_makeLink hlink
  obtain ⟨position, hnew⟩ := g.node?_spawnArray element beside ⟨g.nodes.size⟩
  rw [if_pos rfl] at hnew
  refine ⟨?_, ?_, ?_⟩
  · rw [hfaces.kind?_eq, kind?, hnew]
    rfl
  · rw [hfaces.pinsOf_eq, pinsOf, hnew]
    rfl
  · rw [hfaces.directionOf?_eq, directionOf?_spawnArray]

/-- An older pin differs in its links at most. -/
theorem pin?_wiredArray {q : PinId} (hq : q.index < g.pins.size) :
    (g'.pin? q).map Pin.unwired = (g.pin? q).map Pin.unwired ∧
      g'.defaultsOf? q = g.defaultsOf? q ∧ g'.directionOf? q = g.directionOf? q := by
  have hfaces := sameFaces_makeLink hlink
  have hold : (g.spawnArray element beside).pin? q = g.pin? q := by
    rw [pin?_spawnArray, if_neg]
    rintro rfl
    exact Nat.lt_irrefl _ hq
  refine ⟨?_, ?_, ?_⟩
  · rw [hfaces.pins, hold]
  · rw [defaultsOf?_makeLink hlink, defaultsOf?, hold, ← defaultsOf?]
  · rw [hfaces.directionOf?_eq, directionOf?, hold, ← directionOf?]

theorem feeds_wiredArray (h : g.Linked) {a b : PinId} :
    g'.Feeds a b ↔ g.Feeds a b ∨ a = ⟨g.pins.size⟩ ∧ b = p := by
  rw [feeds_makeLink (h.spawnArray _ beside) hlink (g.directionOf?_spawnArray element beside),
    feeds_spawnArray]

end Wired

theorem getElem?_concat_iff {α : Type} {l : List α} {x y : α} {i : Nat} :
    (l ++ [x])[i]? = some y ↔ l[i]? = some y ∨ i = l.length ∧ y = x := by
  rcases Nat.lt_trichotomy i l.length with hi | rfl | hi
  · rw [List.getElem?_append_left hi, or_iff_left fun h ↦ Nat.ne_of_lt hi h.1]
  · rw [List.getElem?_concat_length, Option.some_inj, List.getElem?_eq_none (Nat.le_refl _),
      or_iff_right nofun, and_iff_right rfl, eq_comm]
  · rw [List.getElem?_eq_none (by rw [List.length_append, List.length_singleton]; omega),
      List.getElem?_eq_none (Nat.le_of_lt hi)]
    exact iff_of_false nofun fun h ↦ h.elim nofun fun h ↦ Nat.ne_of_gt hi h.1

/-- One more array is made and wired. -/
theorem WithArrays.concat {g g₁ g₂ : Graph} {ps : List PinId} {p : PinId} {pin : Pin}
    {beside : NodeId} (h : WithArrays g ps g₁) (hpin : g.pin? p = some pin)
    (hwf : g₂.WellFormed)
    (hlink : (g₁.spawnArray pin.ty.element beside).makeLink ⟨g₁.pins.size⟩ p = .ok g₂) :
    WithArrays g (ps ++ [p]) g₂ := by
  have hnodes := h.nodes_size
  have hpins := h.pins_size
  have hlength : (ps ++ [p]).length = ps.length + 1 := List.length_append
  exact {
    wellFormed := hwf
    linked := (h.linked.spawnArray _ beside).makeLink hlink
    nodes_size := by rw [(sizes_wiredArray hlink).1, hnodes, hlength, Nat.add_assoc]
    pins_size := by rw [(sizes_wiredArray hlink).2, hpins, hlength, Nat.add_assoc]
    order := by
      rw [order_wiredArray hlink, h.order, hlength, List.range_succ, List.map_append,
        List.map_singleton, List.append_assoc, hnodes]
    nodes n hn := by rw [node?_wiredArray hlink (by omega), h.nodes n hn]
    pins q hq := by
      obtain ⟨hface, hdefaults, -⟩ := pin?_wiredArray hlink (q := q) (by omega)
      rw [hface, hdefaults]
      exact h.pins q hq
    arrays i q hq := by
      rcases getElem?_concat_iff.1 hq with hq | ⟨rfl, rfl⟩
      · have hi := (List.getElem?_eq_some_iff.1 hq).1
        have hnode : g₂.node? ⟨g.nodes.size + i⟩ = g₁.node? ⟨g.nodes.size + i⟩ :=
          node?_wiredArray hlink (by rw [hnodes]; exact Nat.add_lt_add_left hi _)
        have hpin := (pin?_wiredArray hlink (q := ⟨g.pins.size + i⟩)
          (by rw [hpins]; exact Nat.add_lt_add_left hi _)).2.2
        rw [kind?, pinsOf, hnode, hpin]
        exact h.arrays i q hq
      · rw [← hnodes, ← hpins]
        exact ⟨pin, hpin, array_wiredArray hlink⟩
    feeds a b := by
      rw [feeds_wiredArray hlink h.linked, h.feeds, or_assoc, hpins]
      refine or_congr_right ⟨?_, ?_⟩
      · rintro (⟨i, hi, rfl⟩ | ⟨rfl, rfl⟩)
        · exact ⟨i, getElem?_concat_iff.2 (.inl hi), rfl⟩
        · exact ⟨ps.length, List.getElem?_concat_length, rfl⟩
      · rintro ⟨i, hi, rfl⟩
        rcases getElem?_concat_iff.1 hi with hi | ⟨rfl, rfl⟩
        · exact .inl ⟨i, hi, rfl⟩
        · exact .inr ⟨rfl, rfl⟩ }

end Graph

namespace Expansion

open VisualScript.Graph

variable {e : Expansion} {inst : NodeId}

/-- An input is left alone, wired to an empty array or reported. -/
theorem addEmptyArray_cases (inst : NodeId) (e : Expansion) {p : PinId} {pin : Pin}
    (hpin : e.graph.pin? p = some pin) :
    ((pin.ty.isArray && !pin.isLinked) = false ∧ addEmptyArray inst e p = e) ∨
    ((pin.ty.isArray && !pin.isLinked) = true ∧ ∃ g,
      (e.graph.spawnArray pin.ty.element inst).makeLink ⟨e.graph.pins.size⟩ p = .ok g ∧
      addEmptyArray inst e p = { e with graph := g }) ∨
    (addEmptyArray inst e p).log.numErrors = e.log.numErrors + 1 := by
  have hfind := e.graph.findPin?_spawnArray pin.ty.element inst
  unfold addEmptyArray
  simp only [hpin]
  cases hmissing : pin.ty.isArray && !pin.isLinked with
  | false =>
    refine .inl ⟨rfl, if_pos ?_⟩
    cases harray : pin.ty.isArray <;> simp_all
  | true =>
    refine .inr ?_
    rw [if_neg (by cases harray : pin.ty.isArray <;> simp_all)]
    have hspawn : e.graph.spawnIntermediate (.makeArray pin.ty.element 0) =
      (⟨e.graph.nodes.size⟩, (e.graph.spawnIntermediate (.makeArray pin.ty.element 0)).2) := rfl
    rw [spawnArray] at hfind ⊢
    rw [hspawn]
    dsimp only
    rw [hfind]
    dsimp only
    split
    · next g hlink => exact .inl ⟨rfl, g, hlink, rfl⟩
    · exact .inr rfl

theorem le_numErrors_addEmptyArray (inst : NodeId) (e : Expansion) (p : PinId) :
    e.log.numErrors ≤ (addEmptyArray inst e p).log.numErrors := by
  cases hpin : e.graph.pin? p with
  | none =>
    unfold addEmptyArray
    rw [hpin]
  | some pin =>
    rcases addEmptyArray_cases inst e hpin with ⟨-, h⟩ | ⟨-, _, -, h⟩ | h
    · exact Nat.le_of_eq (congrArg (·.log.numErrors) h.symm)
    · exact Nat.le_of_eq (congrArg (·.log.numErrors) h.symm)
    · omega

theorem isLinked_iff_feeds {g : Graph} {p : PinId} {pin : Pin} (h : g.Linked)
    (hpin : g.pin? p = some pin) (hinput : pin.direction = .input) :
    pin.isLinked = true ↔ ∃ q, g.Feeds q p := by
  have hlinks (q : PinId) : q ∈ pin.links ↔ g.Feeds q p := by
    rw [← h.mem_linksOf_input (directionOf?_eq_some.2 ⟨pin, hpin, hinput⟩), mem_linksOf]
    exact ⟨fun hq ↦ ⟨pin, hpin, hq⟩, fun ⟨_, hpin', hq⟩ ↦ by
      cases hpin.symm.trans hpin'
      exact hq⟩
  simp only [← hlinks, Pin.isLinked, Bool.not_eq_true', List.isEmpty_eq_false_iff_exists_mem]

/-- An input that none of the arrays is for is wired as it was. -/
theorem exists_pin?_of_withArrays {g g' : Graph} {ps : List PinId} {p : PinId} {pin : Pin}
    (h : WithArrays g ps g') (hlinked : g.Linked) (hpin : g.pin? p = some pin)
    (hinput : pin.direction = .input) (hfresh : p ∉ ps) :
    ∃ pin', g'.pin? p = some pin' ∧ pin'.ty = pin.ty ∧ pin'.isLinked = pin.isLinked := by
  obtain ⟨hface, -⟩ := h.pins p (lt_of_pin?_eq_some hpin)
  rw [hpin, Option.map_some] at hface
  obtain ⟨pin', hpin', hunwired⟩ := Option.map_eq_some_iff.1 hface
  have hdirection : pin'.direction = pin.direction := (congrArg Pin.direction hunwired :)
  refine ⟨pin', hpin', (congrArg Pin.ty hunwired :), ?_⟩
  rw [Bool.eq_iff_iff, isLinked_iff_feeds h.linked hpin' (hdirection.trans hinput),
    isLinked_iff_feeds hlinked hpin hinput]
  refine exists_congr fun q ↦ (h.feeds q p).trans (or_iff_left ?_)
  rintro ⟨i, hi, -⟩
  exact hfresh (List.mem_of_getElem? hi)

/-- One more input is looked at. -/
theorem withArrays_addEmptyArray {g : Graph} {done : List PinId} {p : PinId} {pin : Pin}
    (h : WithArrays g (done.filter g.wantsArray) e.graph) (hlinked : g.Linked)
    (hpin : g.pin? p = some pin) (hinput : pin.direction = .input) (hfresh : p ∉ done)
    (hquiet : (addEmptyArray inst e p).log.numErrors ≤ e.log.numErrors) :
    WithArrays g ((done ++ [p]).filter g.wantsArray) (addEmptyArray inst e p).graph := by
  obtain ⟨pin', hpin', hty, hwired⟩ := exists_pin?_of_withArrays h hlinked hpin hinput fun hp ↦
    hfresh (List.mem_filter.1 hp).1
  have hcases := addEmptyArray_cases inst e hpin'
  rw [hty, hwired] at hcases
  rw [List.filter_append, List.filter_singleton, wantsArray, hpin, Option.any_some]
  rcases hcases with ⟨hkeep, heq⟩ | ⟨hmissing, g', hlink, heq⟩ | herror
  · rw [heq, hkeep]
    simpa using h
  · have hwf := keptAround_wellFormed.addEmptyArray h.wellFormed inst p
    rw [heq] at hwf ⊢
    rw [hmissing]
    exact h.concat hpin hwf hlink
  · omega

/-- The inputs are looked at in turn. -/
theorem withArrays_foldl {g : Graph} (hlinked : g.Linked) {ps done : List PinId}
    (h : WithArrays g (done.filter g.wantsArray) e.graph)
    (hps : ∀ p ∈ ps, ∃ pin, g.pin? p = some pin ∧ pin.direction = .input)
    (hnodup : (done ++ ps).Nodup)
    (hquiet : (ps.foldl (addEmptyArray inst) e).log.numErrors ≤ e.log.numErrors) :
    WithArrays g ((done ++ ps).filter g.wantsArray) (ps.foldl (addEmptyArray inst) e).graph := by
  induction ps generalizing done e with
  | nil => rwa [List.append_nil]
  | cons p ps ih =>
    obtain ⟨pin, hpin, hinput⟩ := hps p List.mem_cons_self
    have hfresh : p ∉ done := fun hmem ↦
      (List.nodup_append'.1 hnodup).2.2 hmem List.mem_cons_self
    rw [List.foldl_cons] at hquiet
    have hfirst := le_numErrors_addEmptyArray inst e p
    have hlater := le_numErrors_foldl (le_numErrors_addEmptyArray inst) ps (addEmptyArray inst e p)
    have hnext := withArrays_addEmptyArray h hlinked hpin hinput hfresh
      (Nat.le_trans hlater hquiet)
    rw [List.append_cons] at hnodup ⊢
    exact ih hnext (fun q hq ↦ hps q (List.mem_cons_of_mem p hq)) hnodup
      (Nat.le_trans hquiet hfirst)

/-- Every unwired array input has got its array. -/
theorem withArrays_addEmptyArrays (hwf : e.graph.WellFormed) (hlinked : e.graph.Linked)
    (hquiet : (e.addEmptyArrays inst).log.numErrors ≤ e.log.numErrors) :
    WithArrays e.graph (e.graph.unlinkedArrays inst) (e.addEmptyArrays inst).graph := by
  have hstart : WithArrays e.graph (([] : List PinId).filter e.graph.wantsArray) e.graph :=
    .refl hwf hlinked
  refine withArrays_foldl hlinked hstart (fun p hp ↦ ?_) ((hwf.nodup_pinsOf inst).filter _) hquiet
  obtain ⟨-, pin, hpin, hdirection, -⟩ := mem_filteredPins.1 hp
  exact ⟨pin, hpin, hdirection⟩

end Expansion

end VisualScript
