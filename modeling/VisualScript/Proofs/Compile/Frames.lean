import VisualScript.Proofs.Compile.Events
import VisualScript.Proofs.Graph.Framing
import VisualScript.Proofs.Macros.Descent
import VisualScript.Proofs.Macros.Leftovers

/-!
# Expansion with frames

When its products are kept for inspection, an expansion frames each page and each copy of a macro.
It does nothing else in another way, so that what comes out is the same graph with frames.
-/

namespace VisualScript

/-- The numbers that were given out are the same. -/
def AgreeBelow (k : Nat) (ρ ρ' : NodeId → NodeId) : Prop := ∀ n : NodeId, n.index < k → ρ' n = ρ n

theorem AgreeBelow.trans {k k' : Nat} {ρ ρ' ρ'' : NodeId → NodeId} (h : AgreeBelow k ρ ρ')
    (h' : AgreeBelow k' ρ' ρ'') (hle : k ≤ k') : AgreeBelow k ρ ρ'' := fun n hn ↦
  (h' n (Nat.lt_of_lt_of_le hn hle)).trans (h n hn)

namespace Graph.Framed

variable {ρ : NodeId → NodeId} {g h : Graph} (hf : Framed ρ g h)
include hf

/-! ## Wires -/

theorem linkPairs (pairs : List (PinId × PinId)) :
    Framed ρ (g.linkPairs pairs).1 (h.linkPairs pairs).1 ∧
      (h.linkPairs pairs).2 = (g.linkPairs pairs).2 := by
  induction pairs generalizing g h with
  | nil => exact ⟨hf, rfl⟩
  | cons pair pairs ih =>
    obtain ⟨source, target⟩ := pair
    have hlink := hf.makeLink source target
    unfold Graph.linkPairs
    generalize g.makeLink source target = x at hlink
    generalize h.makeLink source target = y at hlink
    cases hlink with
    | ok hlinked => exact ih hlinked
    | error e e' => exact ⟨hf, rfl⟩

theorem setAllDefaults (value : String) (object : Option String) (targets : List PinId) :
    Framed ρ (targets.foldl (fun g t ↦ g.setDefaults t value object) g)
      (targets.foldl (fun g t ↦ g.setDefaults t value object) h) :=
  List.foldl_rel (r := Framed ρ) hf fun t _ _ _ hst ↦ hst.setDefaults t value object

theorem wire (sources targets : List PinId) (boundary : PinId) :
    Framed ρ (g.wire sources targets boundary).1 (h.wire sources targets boundary).1 ∧
      (h.wire sources targets boundary).2 = (g.wire sources targets boundary).2 := by
  unfold Graph.wire
  split
  · rw [hf.pin]
    cases g.pin? boundary with
    | none => exact ⟨hf.setAllDefaults _ _ targets, rfl⟩
    | some x => exact ⟨hf.setAllDefaults _ _ targets, rfl⟩
  · exact hf.linkPairs _

theorem rewireThrough (instPin tunnelPin : PinId) (entry : Bool) :
    Framed ρ (g.rewireThrough instPin tunnelPin entry).1
        (h.rewireThrough instPin tunnelPin entry).1 ∧
      (h.rewireThrough instPin tunnelPin entry).2 =
        (g.rewireThrough instPin tunnelPin entry).2 := by
  unfold Graph.rewireThrough
  rw [hf.linksOf_eq, hf.linksOf_eq]
  dsimp only
  split
  · exact (hf.breakPinLinks tunnelPin).wire _ _ _
  · exact (hf.breakPinLinks tunnelPin).wire _ _ _

/-! ## Places -/

theorem placeLeftOf (n beside n' beside' : NodeId) :
    Framed ρ (g.placeLeftOf n beside) (h.placeLeftOf n' beside') := by
  have hleft : Framed ρ (g.placeLeftOf n beside) h := by
    unfold Graph.placeLeftOf
    split
    · exact hf.setPosition_left n _ _
    · exact hf
  unfold Graph.placeLeftOf at hleft ⊢
  split
  · split
    · exact (hf.setPosition_left n _ _).setPosition_right n' _ _
    · exact hf.setPosition_left n _ _
  · split
    · exact hf.setPosition_right n' _ _
    · exact hf

/-- A section gets a frame, unless it is empty. -/
theorem placeSection (grid : SpawnGrid) (ids : List NodeId) (label : String) :
    ∃ ρ', AgreeBelow g.nodes.size ρ ρ' ∧ Framed ρ' g (grid.placeSection h ids label).2.2 := by
  unfold SpawnGrid.placeSection
  split
  · exact ⟨ρ, fun _ _ ↦ rfl, hf⟩
  · dsimp only
    obtain ⟨ρ', hagree, hframed⟩ := (hf.offsetNodes_right ids _ _).spawnFrame label
    exact ⟨ρ', hagree, hframed.setPosition_right _ _ _⟩

end Graph.Framed

open VisualScript.Graph (Framed)

/-! ## Pages -/

section Pages

variable {ρ : NodeId → NodeId} {s t : Graph × SpawnGrid × MessageLog}

theorem framed_mergePage (hf : Framed ρ s.1 t.1) {page : Graph} (hpage : page.WellFormed) :
    ∃ ρ', Framed ρ' (mergePage false s page).1 (mergePage true t page).1 := by
  obtain ⟨g, grid, log⟩ := s
  obtain ⟨h, grid', log'⟩ := t
  obtain ⟨ρ', -, hframed⟩ := (hf.mergeFragment hpage).placeSection grid'
    (((h.mergeFragment page).1.nodes.map (·.2)).mergeSort fun a b ↦ a.index ≤ b.index)
    ("Page: " ++ page.name)
  exact ⟨ρ', hframed⟩

theorem framed_mergeAll (hf : Framed ρ s.1 t.1) {pages : List Graph}
    (hpages : ∀ g ∈ pages, g.WellFormed) :
    ∃ ρ', Framed ρ' (pages.foldl (mergePage false) s).1 (pages.foldl (mergePage true) t).1 := by
  induction pages generalizing s t ρ with
  | nil => exact ⟨ρ, hf⟩
  | cons page pages ih =>
    obtain ⟨hpage, hpages⟩ := List.forall_mem_cons.1 hpages
    obtain ⟨ρ', hframed⟩ := framed_mergePage hf hpage
    exact ih hframed hpages

theorem framed_mergePages {pages : List Graph} (hpages : ∀ g ∈ pages, g.WellFormed) (name : String)
    (log log' : MessageLog) : ∃ ρ, Framed ρ (mergePages pages name log false).2.1
      (mergePages pages name log' true).2.1 := by
  obtain ⟨ρ, hmerged⟩ := framed_mergeAll (s := (.empty name, {}, log))
    (t := (.empty name, {}, log')) (Graph.wellFormed_empty name).framed hpages
  refine ⟨ρ, ?_⟩
  unfold mergePages
  generalize pages.foldl (mergePage false) _ = s at hmerged ⊢
  generalize pages.foldl (mergePage true) _ = t at hmerged ⊢
  obtain ⟨g, grid, log⟩ := s
  obtain ⟨h, grid', log'⟩ := t
  obtain ⟨hentry, hspawned⟩ :=
    hmerged.spawnIntermediate (.functionEntry { customName := some name })
  dsimp only at hentry hspawned ⊢
  generalize g.spawnIntermediate _ = x at hentry hspawned ⊢
  generalize h.spawnIntermediate _ = y at hentry hspawned ⊢
  obtain ⟨entry, g'⟩ := x
  obtain ⟨_, h'⟩ := y
  obtain rfl : _ = ρ entry := hentry
  have hpin := hspawned.addPin entry .output { name := PinName.entryPoint, ty := .int }
  dsimp only at hpin ⊢
  generalize g'.addPin entry .output _ = x at hpin ⊢
  generalize h'.addPin (ρ entry) .output _ = y at hpin ⊢
  cases hpin with
  | ok hxy => exact hxy.2.setOrder _
  | error e e' => exact hspawned.setOrder _

end Pages

/-! ## Events of interfaces -/

section Events

variable {ρ : NodeId → NodeId} {g h : Graph}

/-- What is told by the kind of a node and holds of no comment is found in both graphs or in none. -/
theorem Graph.Framed.any_liveNodes (hf : Framed ρ g h) {p : Node → Bool}
    (hkind : ∀ x y : Node, x.kind = y.kind → p x = p y)
    (hcomment : ∀ x : Node, x.kind.isComment = true → p x = false) :
    h.liveNodes.any p = g.liveNodes.any p := by
  let q (kind : NodeKind) : Bool := p { (default : Node) with kind }
  have hq (x : Node) : p x = q x.kind := hkind _ _ rfl
  have hany (g : Graph) : g.liveNodes.any p = !(g.nodesWhere q).isEmpty := by
    rw [nodesWhere, List.isEmpty_map, Bool.eq_iff_iff]
    simp [hq]
  rw [hany, hany, hf.nodesWhere_eq fun _ ↦ hcomment _ rfl, List.isEmpty_map]

theorem framed_hasEvent (hf : Framed ρ g h) (function : String) :
    h.hasEvent function = g.hasEvent function := by
  unfold Graph.hasEvent
  refine hf.any_liveNodes (fun x y hxy ↦ ?_) fun x hx ↦ ?_
  · rw [hxy]
  · obtain ⟨text, htext⟩ := NodeKind.exists_of_isComment hx
    rw [htext]

theorem framed_spawnOverride (hf : Framed ρ g h) (interface : Class) (f : Function)
    (log log' : MessageLog) : Framed ρ (spawnOverride g interface f log).2.1
      (spawnOverride h interface f log').2.1 := by
  unfold spawnOverride
  obtain ⟨hevent, hspawned⟩ := hf.spawnIntermediate (.event (.overriding f.name interface.name))
  generalize g.spawnIntermediate _ = x at hevent hspawned ⊢
  generalize h.spawnIntermediate _ = y at hevent hspawned ⊢
  obtain ⟨event, g'⟩ := x
  obtain ⟨_, h'⟩ := y
  obtain rfl : _ = ρ event := hevent
  dsimp only at hspawned ⊢
  refine List.foldl_rel (r := fun s t : Graph × MessageLog ↦ Framed ρ s.1 t.1) hspawned
    fun p _ s t hst ↦ ?_
  have hpin := hst.addPin event .output { name := p.name, ty := p.ty }
  generalize s.1.addPin event .output _ = x at hpin ⊢
  generalize t.1.addPin (ρ event) .output _ = y at hpin ⊢
  cases hpin with
  | ok hxy => exact hxy.2
  | error e e' => exact hst

theorem framed_spawnMissingEvents (hf : Framed ρ g h) (interfaces : List ImplementedInterface)
    (log log' : MessageLog) : Framed ρ (spawnMissingEvents g interfaces log).2.1
      (spawnMissingEvents h interfaces log').2.1 := by
  unfold spawnMissingEvents
  dsimp only
  refine List.foldl_rel (r := fun s t : List NodeId × Graph × MessageLog ↦ Framed ρ s.2.1 t.2.1) hf
    fun f _ s t hst ↦ ?_
  rw [framed_hasEvent hst]
  split
  · exact hst
  · exact framed_spawnOverride hst f.1.interface f.2 _ _

end Events

/-! ## Macros -/

namespace Expansion

variable {ρ : NodeId → NodeId} {e e' : Expansion}

theorem framed_addEmptyArrays (hf : Framed ρ e.graph e'.graph) (inst : NodeId) :
    Framed ρ (e.addEmptyArrays inst).graph (e'.addEmptyArrays (ρ inst)).graph := by
  unfold addEmptyArrays
  rw [hf.filteredPins_eq]
  refine List.foldl_rel (r := fun e e' : Expansion ↦ Framed ρ e.graph e'.graph) hf
    fun p _ e e' hf ↦ ?_
  unfold addEmptyArray
  rw [hf.pin]
  cases e.graph.pin? p with
  | none => exact hf
  | some pin =>
    dsimp only [Option.map_some]
    rw [show (pin.renumber ρ).ty = pin.ty from rfl,
      show (pin.renumber ρ).isLinked = pin.isLinked from rfl]
    split
    · exact hf
    · obtain ⟨harray, hspawned⟩ := hf.spawnIntermediate (.makeArray pin.ty.element 0)
      generalize e.graph.spawnIntermediate _ = x at harray hspawned ⊢
      generalize e'.graph.spawnIntermediate _ = y at harray hspawned ⊢
      obtain ⟨array, g⟩ := x
      obtain ⟨_, h⟩ := y
      obtain rfl : _ = ρ array := harray
      have hplaced := hspawned.placeLeftOf array inst (ρ array) (ρ inst)
      dsimp only at hplaced ⊢
      rw [hplaced.findPin?_eq]
      cases (g.placeLeftOf array inst).findPin? array PinName.array (some .output) with
      | none => exact hplaced
      | some output =>
        have hlink := hplaced.makeLink output p
        dsimp only
        generalize (g.placeLeftOf array inst).makeLink output p = x at hlink ⊢
        generalize (h.placeLeftOf (ρ array) (ρ inst)).makeLink output p = y at hlink ⊢
        cases hlink with
        | ok hlinked => exact hlinked
        | error e e' => exact hplaced

/-- Copies are marked as made by the compiler. -/
theorem framed_recordCopies (hf : Framed ρ e.graph e'.graph) (source body : Graph)
    (inst inst' : NodeId) (r r' : Remap) : Framed ρ (e.recordCopies source body inst r).graph
      (e'.recordCopies source body inst' r').graph := by
  unfold recordCopies
  refine List.foldl_rel (r := fun e e' : Expansion ↦ Framed ρ e.graph e'.graph) hf
    fun n _ e e' hf ↦ ?_
  have hleft {g h : Graph} (hf : Framed ρ g h) (n : NodeId) :
      Framed ρ (g.modifyNode n fun n ↦ { n with isIntermediate := true }) h :=
    hf.modifyNode_left n fun _ ↦ ⟨rfl, rfl, rfl, rfl⟩
  have hright {g h : Graph} (hf : Framed ρ g h) (n : NodeId) :
      Framed ρ g (h.modifyNode n fun n ↦ { n with isIntermediate := true }) :=
    hf.modifyNode_right n fun _ ↦ ⟨rfl, rfl, rfl, rfl⟩
  split
  · split
    · exact hf
    · exact hright hf _
  · split
    · exact hleft hf _
    · exact hright (hleft hf _) _

theorem framed_placeCopies (hf : Framed ρ e.graph e'.graph) (source : Graph) (inst inst' : NodeId)
    (copies copies' : List NodeId) : ∃ ρ', AgreeBelow e.graph.nodes.size ρ ρ' ∧
      Framed ρ' (e.placeCopies source inst copies false).graph
        (e'.placeCopies source inst' copies' true).graph := by
  obtain ⟨ρ', hagree, hframed⟩ := hf.placeSection e'.grid copies' ("Macro: " ++ source.name)
  refine ⟨ρ', hagree, ?_⟩
  unfold placeCopies
  rw [if_neg Bool.false_ne_true, if_pos rfl]
  split
  · exact hframed
  · exact hframed.offsetNodes_left copies _ _

theorem framed_collapsePin (hf : Framed ρ e.graph e'.graph) (tunnel inst : NodeId) (entry : Bool)
    (p : PinId) : Framed ρ (collapsePin tunnel inst entry e p).graph
      (collapsePin (ρ tunnel) (ρ inst) entry e' p).graph := by
  unfold collapsePin
  extract_lets side
  rw [hf.pin]
  cases e.graph.pin? p with
  | none => exact hf
  | some pin =>
    dsimp only [Option.map_some]
    rw [show (pin.renumber ρ).direction = pin.direction from rfl,
      show (pin.renumber ρ).name = pin.name from rfl, hf.findPin?_eq]
    by_cases hside : pin.direction = side
    · rw [if_neg (not_not.2 hside), if_neg (not_not.2 hside)]
      cases e.graph.findPin? inst pin.name (some side.opposite) with
      | none => exact hf
      | some instPin =>
        obtain ⟨hrewired, hok⟩ := hf.rewireThrough instPin p entry
        dsimp only
        rw [hok]
        cases (e.graph.rewireThrough instPin p entry).2 with
        | false => exact hrewired
        | true => exact hrewired
    · rw [if_pos hside, if_pos hside]
      exact hf

theorem framed_collapseTunnel (hf : Framed ρ e.graph e'.graph) (tunnel inst : NodeId) :
    Framed ρ (collapseTunnel inst e tunnel).graph
      (collapseTunnel (ρ inst) e' (ρ tunnel)).graph := by
  unfold collapseTunnel
  rw [hf.kind?_eq]
  split
  · next entry _ =>
    rw [hf.pinsOf_eq]
    refine Framed.removeNode ?_ tunnel
    exact List.foldl_rel (r := fun e e' : Expansion ↦ Framed ρ e.graph e'.graph) hf
      fun p _ _ _ hf ↦ framed_collapsePin hf tunnel inst entry p
  · exact hf

theorem tunnelsOf_eq {g h : Graph} (hf : Framed ρ g h) (ids : List NodeId) :
    tunnelsOf h (ids.map ρ) = (tunnelsOf g ids).map ρ := by
  have hkind (p : NodeKind → Bool) : (h.kindIs · p) ∘ ρ = (g.kindIs · p) :=
    funext fun n ↦ hf.kindIs_eq n p
  unfold tunnelsOf
  dsimp only
  rw [List.map_append, List.filter_map, List.filter_map, List.filter_map]
  simp only [Function.comp_def, hf.kindIs_eq, hf.kind?_eq]

variable {macros : List Graph} (hmacros : ∀ g ∈ macros, g.WellFormed)

include hmacros in
theorem framed_expandInstance (hf : Framed ρ e.graph e'.graph) (inst : NodeId) :
    ∃ ρ', AgreeBelow e.graph.nodes.size ρ ρ' ∧
      Framed ρ' (expandInstance macros false e inst).graph
        (expandInstance macros true e' (ρ inst)).graph := by
  unfold expandInstance
  rw [hf.kind?_eq]
  split
  · next data hkind =>
    cases hsource : macros.find? (·.name == data.macroGraph) with
    | none => exact ⟨ρ, fun _ _ ↦ rfl, hf.removeNode inst⟩
    | some source =>
      have hbody := (hmacros source (List.mem_of_find?_eq_some hsource)).macroBody data
      have harrays := framed_addEmptyArrays hf inst
      have hwidens : Widens e (e.addEmptyArrays inst) := .foldl (widens_addEmptyArray inst) _ e
      have hmerged := harrays.mergeFragment hbody
      dsimp only
      generalize source.macroBody data = body at hbody hmerged ⊢
      generalize e.addEmptyArrays inst = e₁ at harrays hwidens hmerged ⊢
      generalize e'.addEmptyArrays (ρ inst) = e₁' at harrays hmerged ⊢
      let copies (g : Graph) : List NodeId := body.order.filterMap (g.mergeFragment body).1.node?
      have hcopies : copies e₁'.graph = (copies e₁.graph).map ρ := by
        rw [List.map_filterMap]
        exact List.filterMap_congr fun n _ ↦ harrays.remapNode?_eq hbody n
      have hrecorded := @framed_recordCopies _
        { e₁ with graph := (e₁.graph.mergeFragment body).2 }
        { e₁' with graph := (e₁'.graph.mergeFragment body).2 } hmerged source body inst (ρ inst)
        (e₁.graph.mergeFragment body).1 (e₁'.graph.mergeFragment body).1
      have hsizes : e₁.graph.nodes.size + body.liveNodes.length ≤
          (recordCopies { e₁ with graph := (e₁.graph.mergeFragment body).2 } source body inst
            (e₁.graph.mergeFragment body).1).graph.nodes.size := by
        refine Nat.le_trans ?_ (ages_recordCopies _ source body inst _).size_nodes
        change _ ≤ (Slots.append _ _).size
        rw [Slots.size_append, List.length_map]
      obtain ⟨ρ', hagree, hplaced⟩ := framed_placeCopies hrecorded source inst (ρ inst)
        (copies e₁.graph) (copies e₁'.graph)
      -- the copies and the instance were there before the frame
      have hbefore (n : NodeId) (hn : n.index < e.graph.nodes.size) : ρ' n = ρ n :=
        hagree n (Nat.lt_of_lt_of_le hn
          (hwidens.1.size_nodes.trans ((Nat.le_add_right _ _).trans hsizes)))
      have hcopies' : copies e₁'.graph = (copies e₁.graph).map ρ' := by
        rw [hcopies]
        refine List.map_congr_left fun n hn ↦ (hagree n ?_).symm
        rw [show copies e₁.graph = _ from Graph.filterMap_node?_remapInto hbody] at hn
        obtain ⟨i, hi, rfl⟩ := List.mem_map.1 hn
        exact Nat.lt_of_lt_of_le (Nat.add_lt_add_left (List.mem_range.1 hi) _) hsizes
      refine ⟨ρ', hbefore, ?_⟩
      rw [← hbefore inst (Graph.lt_size_of_kind? hkind)] at hplaced ⊢
      refine Framed.removeNode ?_ inst
      have htunnels := tunnelsOf_eq hplaced (copies e₁.graph)
      rw [← hcopies'] at htunnels
      change Framed ρ' (List.foldl (collapseTunnel inst) _ (tunnelsOf _ (copies e₁.graph))).graph
        (List.foldl (collapseTunnel (ρ' inst)) _ (tunnelsOf _ (copies e₁'.graph))).graph
      rw [htunnels, List.foldl_map]
      exact List.foldl_rel (r := fun e e' : Expansion ↦ Framed ρ' e.graph e'.graph) hplaced
        fun tunnel _ _ _ hf ↦ framed_collapseTunnel hf tunnel inst
  · exact ⟨ρ, fun _ _ ↦ rfl, hf⟩

include hmacros in
theorem framed_expandAll (hf : Framed ρ e.graph e'.graph) {l : List NodeId}
    (hl : ∀ n ∈ l, n.index < e.graph.nodes.size) : ∃ ρ', AgreeBelow e.graph.nodes.size ρ ρ' ∧
      Framed ρ' (l.foldl (expandInstance macros false) e).graph
        ((l.map ρ).foldl (expandInstance macros true) e').graph := by
  induction l generalizing e e' ρ with
  | nil => exact ⟨ρ, fun _ _ ↦ rfl, hf⟩
  | cons inst l ih =>
    obtain ⟨-, hl⟩ := List.forall_mem_cons.1 hl
    obtain ⟨ρ₁, hagree₁, hexpanded⟩ := framed_expandInstance hmacros hf inst
    have hsize := (widens_expandInstance macros false e inst).size_nodes
    obtain ⟨ρ₂, hagree₂, hrest⟩ := ih hexpanded fun n hn ↦ Nat.lt_of_lt_of_le (hl n hn) hsize
    refine ⟨ρ₂, hagree₁.trans hagree₂ hsize, ?_⟩
    rwa [List.map_congr_left fun n hn ↦ hagree₁ n (hl n hn)] at hrest

theorem framed_abandonAll (hf : Framed ρ e.graph e'.graph) (l : List NodeId) :
    Framed ρ (l.foldl abandon e).graph ((l.map ρ).foldl abandon e').graph := by
  rw [List.foldl_map]
  exact List.foldl_rel (r := fun e e' : Expansion ↦ Framed ρ e.graph e'.graph) hf
    fun inst _ _ _ hf ↦ hf.removeNode inst

theorem instances_eq (hf : Framed ρ e.graph e'.graph) : e'.instances = e.instances.map ρ :=
  hf.nodesWhere_eq fun _ ↦ rfl

include hmacros in
theorem framed_expandPasses (passes : Nat) (hf : Framed ρ e.graph e'.graph) :
    ∃ ρ', Framed ρ' (expandPasses macros false passes e).graph
      (expandPasses macros true passes e').graph := by
  induction passes generalizing e e' ρ with
  | zero =>
    unfold expandPasses
    rw [instances_eq hf]
    exact ⟨ρ, framed_abandonAll hf _⟩
  | succ passes ih =>
    unfold expandPasses
    rw [instances_eq hf, List.isEmpty_map]
    split
    · exact ⟨ρ, hf⟩
    · obtain ⟨ρ', -, hexpanded⟩ := framed_expandAll hmacros hf fun _ ↦ hf.lt_of_mem_nodesWhere
      exact ih hexpanded

end Expansion

theorem framed_expandMacros {ρ : NodeId → NodeId} {g h : Graph} (hf : Framed ρ g h)
    {macros : List Graph} (hmacros : ∀ g ∈ macros, g.WellFormed) (log log' : MessageLog) :
    ∃ ρ', Framed ρ' (expandMacros g macros log false).graph
      (expandMacros h macros log' true).graph :=
  Expansion.framed_expandPasses hmacros _ hf

/-! ## Timelines -/

namespace Timelines

variable {ρ : NodeId → NodeId} {s t : State} {g h : Graph}

/-- Two expansions of a timeline with the same nodes but for frames. -/
structure Framed (ρ : NodeId → NodeId) (s t : State) : Prop where
  graph : Graph.Framed ρ s.graph t.graph
  getter : t.getter = s.getter.map ρ

theorem framed_getterFor (hf : Framed ρ s t) (template : TimelineTemplate) (p p' : Position) :
    (getterFor t template p').1 = ρ (getterFor s template p).1 ∧
      Framed ρ (getterFor s template p).2 (getterFor t template p').2 := by
  unfold getterFor
  cases hgetter : s.getter with
  | some n =>
    have hgetter' : t.getter = some (ρ n) := hf.getter.trans (congrArg (Option.map ρ) hgetter)
    rw [hgetter']
    exact ⟨rfl, hf⟩
  | none =>
    have hgetter' : t.getter = none := hf.getter.trans (congrArg (Option.map ρ) hgetter)
    rw [hgetter']
    obtain ⟨hnode, hspawned⟩ := hf.graph.spawnIntermediate
      (.variableGet (.selfMember template.name (.object timelineComponentClass)))
    exact ⟨hnode, (hspawned.setPosition_left _ _ _).setPosition_right _ _ _, congrArg some hnode⟩

open VisualScript.Graph (Edit)
open VisualScript.Graph.Framed (EditBoth)

theorem editBoth_ofExcept (hf : Graph.Framed ρ g h) {x y : Except CompileError Graph}
    (hxy : BothEnd (Graph.Framed ρ) x y) : EditBoth ρ (Edit.ofExcept g x) (Edit.ofExcept h y) := by
  cases hxy with
  | ok hgraph => exact ⟨hgraph, rfl⟩
  | error e e' => exact ⟨hf, rfl⟩

theorem editBoth_andThen {e e' : Edit} (he : EditBoth ρ e e') {f k : Graph → Edit}
    (hf : ∀ {g h}, Graph.Framed ρ g h → EditBoth ρ (f g) (k h)) :
    EditBoth ρ (e.andThen f) (e'.andThen k) := by
  obtain ⟨g, problem⟩ := e
  obtain ⟨h, problem'⟩ := e'
  have hstopped : problem'.isSome = problem.isSome := he.stopped
  cases problem with
  | none =>
    obtain rfl : problem' = none := Option.not_isSome_iff_eq_none.1 (by rw [hstopped]; decide)
    exact hf he.graph
  | some problem =>
    obtain ⟨problem', rfl⟩ := Option.isSome_iff_exists.1 hstopped
    exact he

theorem editBoth_moveNewTime (hf : Graph.Framed ρ g h) (node call : NodeId) :
    EditBoth ρ (moveNewTime node call g) (moveNewTime (ρ node) (ρ call) h) := by
  have hpin := hf.addPin call .input { name := PinName.newTime, ty := .float }
  unfold moveNewTime
  generalize g.addPin call .input _ = x at hpin ⊢
  generalize h.addPin (ρ call) .input _ = y at hpin ⊢
  cases hpin with
  | error e e' => exact ⟨hf, rfl⟩
  | @ok a b hab =>
    obtain ⟨newTime, g'⟩ := a
    obtain ⟨_, h'⟩ := b
    obtain ⟨rfl, hadded⟩ := hab
    dsimp only at hadded ⊢
    rw [hadded.findPin?_eq]
    cases g'.findPin? node PinName.newTime (some .input) with
    | none => exact ⟨hadded, rfl⟩
    | some source => exact hadded.movePinLinks source _

theorem editBoth_wireControl (hf : Graph.Framed ρ g h) (template : TimelineTemplate)
    (control : String) (node component call : NodeId) (controlPin : PinId) :
    EditBoth ρ (wireControl g template control node component call controlPin)
      (wireControl h template control (ρ node) (ρ component) (ρ call) controlPin) := by
  unfold wireControl
  extract_lets e e'
  have hwired : EditBoth ρ e e' := by
    refine editBoth_andThen
      (editBoth_ofExcept hf (hf.connect component call template.name PinName.self))
      fun {g h} hf ↦ ?_
    have hpin := hf.findPin_both call PinName.execute (some .input)
    generalize g.findPin call PinName.execute _ = x at hpin ⊢
    generalize h.findPin (ρ call) PinName.execute _ = y at hpin ⊢
    cases hpin with
    | error e e' => exact ⟨hf, rfl⟩
    | ok hxy =>
      subst hxy
      exact hf.movePinLinks controlPin _
  split
  · exact editBoth_andThen hwired fun hf ↦ editBoth_moveNewTime hf node call
  · exact hwired

theorem framed_expandControl (hf : Framed ρ s t) (node : NodeId) (template : TimelineTemplate)
    (p p' : Position) (control : String × Nat) : Framed ρ (expandControl node template p s control)
      (expandControl (ρ node) template p' t control) := by
  unfold expandControl
  rw [hf.graph.findPin?_eq]
  cases s.graph.findPin? node control.1 (some .input) with
  | none => exact hf
  | some controlPin =>
    dsimp only
    rw [hf.graph.linksOf_eq]
    split
    · exact hf
    · obtain ⟨hcomponent, hgot⟩ := framed_getterFor hf template p p'
      generalize getterFor s template p = x at hcomponent hgot ⊢
      generalize getterFor t template p' = y at hcomponent hgot ⊢
      obtain ⟨component, s'⟩ := x
      obtain ⟨_, t'⟩ := y
      obtain rfl : _ = ρ component := hcomponent
      obtain ⟨hcall, hspawned⟩ := hgot.graph.spawnIntermediate
        (.callFunction (.external control.1 timelineComponentClass false))
      dsimp only at hcall hspawned ⊢
      generalize s'.graph.spawnIntermediate _ = x at hcall hspawned ⊢
      generalize t'.graph.spawnIntermediate _ = y at hcall hspawned ⊢
      obtain ⟨call, g⟩ := x
      obtain ⟨_, h⟩ := y
      obtain rfl : _ = ρ call := hcall
      have hwired := editBoth_wireControl ((hspawned.setPosition_left call p.x
        (p.y + (control.2 + 1 : Int) * SpawnGrid.nodeHeight)).setPosition_right (ρ call) p'.x
        (p'.y + (control.2 + 1 : Int) * SpawnGrid.nodeHeight)) template control.1 node component
        call controlPin
      exact ⟨hwired.graph, hgot.getter⟩

theorem framed_eventFor (hf : Framed ρ s t) (node : NodeId) (p p' : Position) (function : String)
    (row : Nat) : (eventFor t (ρ node) p' function row).1 = ρ (eventFor s node p function row).1 ∧
      Framed ρ (eventFor s node p function row).2 (eventFor t (ρ node) p' function row).2 := by
  unfold eventFor
  extract_lets implements
  rw [hf.graph.nodesWhere_eq fun _ ↦ rfl, List.head?_map]
  cases (s.graph.nodesWhere implements).head? with
  | some event => exact ⟨rfl, hf⟩
  | none =>
    obtain ⟨hevent, hspawned⟩ :=
      hf.graph.spawnIntermediate (.event { function, isInternal := true })
    exact ⟨hevent, (hspawned.setPosition_left _ _ _).setPosition_right _ _ _, hf.getter⟩

theorem framed_expandTrack (hf : Framed ρ s t) (node : NodeId) (p p' : Position)
    (track : (String × String) × Nat) :
    Framed ρ (expandTrack node p s track) (expandTrack (ρ node) p' t track) := by
  obtain ⟨⟨pinName, function⟩, row⟩ := track
  obtain ⟨hevent, hfound⟩ := framed_eventFor hf node p p' function row
  unfold expandTrack
  dsimp only
  generalize eventFor s node p function row = x at hevent hfound ⊢
  generalize eventFor t (ρ node) p' function row = y at hevent hfound ⊢
  obtain ⟨event, s'⟩ := x
  obtain ⟨_, t'⟩ := y
  obtain rfl : _ = ρ event := hevent
  dsimp only at hfound ⊢
  rw [hfound.graph.findPin?_eq, hfound.graph.findPin?_eq]
  split
  · next trackPin thenPin _ _ =>
    exact ⟨(hfound.graph.movePinLinks trackPin thenPin).graph, hfound.getter⟩
  · exact hfound

theorem framed_expandNode (hf : Framed ρ s t) (template : TimelineTemplate) (node : NodeId) :
    Framed ρ (expandNode template node s) (expandNode template (ρ node) t) := by
  have hcontrols := List.foldl_rel (r := Framed ρ) (l := NodeKind.timelineControls.zipIdx)
    (f := expandControl node template (positionOf s.graph node))
    (g := expandControl (ρ node) template (positionOf t.graph (ρ node)))
    (show Framed ρ { s with getter := none } { t with getter := none } from ⟨hf.graph, rfl⟩)
    fun control _ _ _ hf ↦ framed_expandControl hf node template _ _ control
  exact List.foldl_rel (r := Framed ρ) hcontrols fun track _ _ _ hf ↦
    framed_expandTrack hf node _ _ track

end Timelines

theorem framed_expandTimelines {ρ : NodeId → NodeId} {g h : Graph} (hf : Framed ρ g h)
    (templates : List TimelineTemplate) (log log' : MessageLog) :
    Framed ρ (expandTimelines g templates log).2.1 (expandTimelines h templates log').2.1 := by
  unfold expandTimelines
  extract_lets isTimeline
  rw [hf.nodesWhere_eq fun _ ↦ rfl, List.foldl_map]
  refine List.foldl_rel (r := fun s t : Bool × Graph × MessageLog ↦ Framed ρ s.2.1 t.2.1) hf ?_
  rintro node - ⟨ok, g, log⟩ ⟨ok', h, log'⟩ hf
  dsimp only at hf ⊢
  rw [hf.kind?_eq]
  split
  · next name _ =>
    cases templates.find? (·.name == name) with
    | none => exact hf
    | some template =>
      exact (Timelines.framed_expandNode (s := { graph := g, log })
        (t := { graph := h, log := log' }) ⟨hf, rfl⟩ template node).graph
  · exact hf

/-! ## Names of functions -/

theorem Graph.functionName_eq (g : Graph) {name? : NodeKind → Option String}
    (h : ∀ kind, name? kind = match kind with
      | .functionEntry data => data.customName
      | _ => none) :
    g.functionName = (g.order.filterMap fun n ↦ (g.kind? n).bind name?).head?.getD g.name := by
  have hselect : (fun n ↦ (g.kind? n).bind name?) = fun n ↦ (g.node? n).bind (name? ·.kind) :=
    funext fun n ↦ by
      rw [kind?]
      cases g.node? n <;> rfl
  rw [hselect, ← List.filterMap_filterMap, ← liveNodes, List.head?_filterMap, functionName]
  congr 1
  exact congrArg (List.findSome? · g.liveNodes) (funext fun n ↦ (h n.kind).symm)

theorem Graph.Framed.functionName_eq {ρ : NodeId → NodeId} {g h : Graph} (hf : Framed ρ g h) :
    h.functionName = g.functionName := by
  let name? : NodeKind → Option String
    | .functionEntry data => data.customName
    | _ => none
  have hname (kind : NodeKind) : name? kind = match kind with
      | .functionEntry data => data.customName
      | _ => none := by
    cases kind <;> rfl
  have hnames : (h.order.filterMap fun n ↦ (h.kind? n).bind name?) =
      (g.order.filterMap fun n ↦ (g.kind? n).bind name?).map id := by
    refine hf.order.filterMap (fun m hm ↦ ?_) fun n m hnm ↦ ?_
    · rw [kind?]
      cases hnode : h.node? m with
      | none => rfl
      | some x =>
        have hcomment := (hf.frame m x hnode hm).1
        cases hkind : x.kind with
        | functionEntry data =>
          rw [hkind] at hcomment
          cases hcomment
        | _ => simp [hkind, name?]
    · rw [hnm, hf.kind?_eq, Option.map_id, id]
  rw [h.functionName_eq hname, g.functionName_eq hname, hf.name, hnames, List.map_id]

/-! ## Functions -/

/-- The same but for whether the products of expansions are kept. -/
def CompileOptions.saving (options : CompileOptions) (save : Bool) : CompileOptions :=
  { options with saveIntermediateProducts := save }

/-- The same but for whether the products of expansions are kept. -/
def CompileEnv.saving (env : CompileEnv) (save : Bool) : CompileEnv :=
  { env with options := env.options.saving save }

namespace FunctionContext

/-- Whether the number of a node shows: not that of a comment without pins, nor that of the entry of
the event graph. -/
def shows (c : FunctionContext) (n : NodeId) : Bool :=
  (c.graph.node? n).any fun x ↦
    !(x.kind.isComment && x.pins.isEmpty) && !(c.isEventGraph && x.kind.isEntry)

/-- The numbers of nodes that can show in the class. -/
def numbers (c : FunctionContext) : List NodeId := c.graph.order.filter c.shows

/-- The second function has frames in its graph, and else the two are the same. -/
structure Framed (ρ : NodeId → NodeId) (c d : FunctionContext) : Prop where
  graph : Graph.Framed ρ c.graph d.graph
  frame : d = { c with graph := d.graph }

namespace Framed

variable {ρ : NodeId → NodeId} {c d : FunctionContext} (h : Framed ρ c d)
include h

theorem isEventGraph : d.isEventGraph = c.isEventGraph := by
  rw [h.frame]
  rfl

theorem shows_eq (n : NodeId) : d.shows (ρ n) = c.shows n := by
  have hnode := h.graph.node n
  rw [shows, shows, h.isEventGraph]
  generalize c.graph.node? n = x at hnode
  generalize d.graph.node? (ρ n) = y at hnode
  cases hnode with
  | none => rfl
  | some hxy => rw [Option.any_some, Option.any_some, hxy.kind, hxy.pins]

theorem numbers_eq : d.numbers = c.numbers.map ρ := by
  rw [numbers, numbers, ← List.filterMap_eq_filter, ← List.filterMap_eq_filter]
  refine h.graph.order.filterMap (fun m hm ↦ ?_) fun n m hnm ↦ ?_
  · have hframe : d.shows m = false := by
      rw [shows]
      cases hnode : d.graph.node? m with
      | none => rfl
      | some x =>
        obtain ⟨hcomment, hpins⟩ := h.graph.frame m x hnode hm
        simp [hcomment, hpins]
    rw [Option.guard, hframe]
    rfl
  · rw [hnm, Option.guard, Option.guard, h.shows_eq]
    split <;> rfl

/-- If the numbers that show are the same, then all of them stay. -/
theorem eq_of_numbers (hnumbers : d.numbers = c.numbers) {n : NodeId} (hn : n ∈ c.numbers) :
    ρ n = n := by
  have hsame := h.numbers_eq.symm.trans hnumbers
  exact List.map_inj_left.1 (hsame.trans (List.map_id _).symm) n hn

end Framed

end FunctionContext

/-! ## Stubs -/

namespace Graph.Framed

variable {ρ : NodeId → NodeId} {g h : Graph} {event : NodeId}

theorem parametersOf_eq (hf : Framed ρ g h) (event : NodeId) :
    EventStub.parametersOf h (ρ event) = EventStub.parametersOf g event := by
  unfold EventStub.parametersOf
  rw [hf.filteredPins_eq]
  refine List.filterMap_congr fun p _ ↦ ?_
  rw [hf.pin, Option.map_map]
  rfl

/-- A pin of a node that keeps its number names its net alike. -/
theorem nameOf_eq (hf : Framed ρ g h) {p : PinId} {n : NodeId} (hp : g.ownerOf? p = some n)
    (hn : ρ n = n) (names : NetNameMap) : names.nameOf h p = names.nameOf g p := by
  have hbase : NetNameMap.baseName h p = NetNameMap.baseName g p := by
    obtain ⟨pin, hpin, rfl⟩ := ownerOf?_eq_some.1 hp
    unfold NetNameMap.baseName
    rw [hf.pin, hpin, Option.map_some]
    dsimp only
    rw [show (pin.renumber ρ).owner = ρ pin.owner from rfl, hf.kind?_eq, hn,
      show (pin.renumber ρ).name = pin.name from rfl]
  rw [NetNameMap.nameOf, NetNameMap.nameOf, hbase]

theorem storageNames_eq (hf : Framed ρ g h) (hwf : g.WellFormed) (hevent : ρ event = event)
    (names : NetNameMap) :
    EventStub.storageNames names h (EventStub.parametersOf g event) =
      EventStub.storageNames names g (EventStub.parametersOf g event) := by
  unfold EventStub.storageNames
  refine List.foldl_ext _ _ _ fun s p hp ↦ ?_
  obtain ⟨q, hq, hparam⟩ := List.mem_filterMap.1 hp
  obtain ⟨pin, -, rfl⟩ := Option.map_eq_some_iff.1 hparam
  have howner := (hwf.mem_pinsOf event q).1 (List.mem_filter.1 hq).1
  obtain ⟨named, names⟩ := s
  dsimp only
  rw [hf.nameOf_eq howner hevent]

/-- An event that keeps its number has the same stub. -/
theorem build_eq (hf : Framed ρ g h) (hwf : g.WellFormed) (hevent : ρ event = event)
    (schema : Schema) (parent : Class) (names : NetNameMap) (log log' : MessageLog) :
    (EventStub.build h event schema parent names log').1 =
        (EventStub.build g event schema parent names log).1 ∧
      (EventStub.build h event schema parent names log').2.1 =
        (EventStub.build g event schema parent names log).2.1 := by
  have hkind : h.kind? event = g.kind? event := by rw [← hf.kind?_eq event, hevent]
  have hparams : EventStub.parametersOf h event = EventStub.parametersOf g event := by
    rw [← hf.parametersOf_eq event, hevent]
  unfold EventStub.build
  rw [hkind]
  split
  · next data _ =>
    dsimp only
    rw [hparams, hf.storageNames_eq hwf hevent]
    split
    · exact ⟨rfl, rfl⟩
    · generalize EventStub.wire _ _ _ _ = wired
      cases wired <;> exact ⟨rfl, rfl⟩
  · exact ⟨rfl, rfl⟩

end Graph.Framed

/-! ## Listed functions -/

theorem NodeKind.plain_of_isEvent {kind : NodeKind} (h : kind.isEvent = true) :
    kind.isComment = false ∧ kind.isEntry = false := by
  cases kind with
  | event data => exact ⟨rfl, rfl⟩
  | _ => cases h

namespace Compilation

variable {c d : Compilation} {ρ : NodeId → NodeId} {g h : Graph}

/-- The second compile has lists the same functions as the first, with frames in their graphs. -/
structure Framed (c d : Compilation) : Prop where
  frame : ∃ log contexts, d = { c with log, contexts }
  contexts : List.Forall₂ (fun x y ↦ ∃ ρ, FunctionContext.Framed ρ x y) c.contexts d.contexts

namespace Framed

theorem refl (hnone : c.contexts = []) : Framed c c := by
  refine ⟨⟨c.log, c.contexts, rfl⟩, ?_⟩
  rw [hnone]
  exact .nil

theorem setLog (hf : Framed c d) (log log' : MessageLog) :
    Framed { c with log } { d with log := log' } := by
  obtain ⟨⟨log, contexts, rfl⟩, hcontexts⟩ := hf
  exact ⟨⟨_, _, rfl⟩, hcontexts⟩

variable (hf : Framed c d)
include hf

theorem addContext {x y : FunctionContext} (hxy : FunctionContext.Framed ρ x y) :
    Framed (c.addContext x) (d.addContext y) := by
  obtain ⟨⟨log, contexts, rfl⟩, hcontexts⟩ := hf
  exact ⟨⟨_, _, rfl⟩, List.rel_append hcontexts (.cons ⟨ρ, hxy⟩ .nil)⟩

theorem blueprint : d.blueprint = c.blueprint := by
  obtain ⟨⟨log, contexts, rfl⟩, -⟩ := hf
  rfl

theorem expand (hmacros : ∀ g ∈ c.blueprint.macroGraphs, g.WellFormed) (env : CompileEnv)
    (hgraph : Graph.Framed ρ g h) : ∃ ρ', Graph.Framed ρ' (c.expand (env.saving false) g).1
        (d.expand (env.saving true) h).1 ∧
      Framed (c.expand (env.saving false) g).2 (d.expand (env.saving true) h).2 := by
  obtain ⟨ρ', hexpanded⟩ := framed_expandMacros hgraph hmacros c.log d.log
  rw [← hf.blueprint] at hexpanded
  refine ⟨ρ', ?_, hf.setLog _ _⟩
  unfold Compilation.expand
  rw [← hf.blueprint]
  exact hexpanded

theorem addStub (hgraph : Graph.Framed ρ g h) (hwf : g.WellFormed) {event : NodeId}
    (hevent : ρ event = event) (env : CompileEnv) :
    Framed (c.addStub (env.saving false) g event) (d.addStub (env.saving true) h event) := by
  obtain ⟨⟨log, contexts, rfl⟩, hcontexts⟩ := hf
  have hkind : h.kind? event = g.kind? event := by rw [← hgraph.kind?_eq event, hevent]
  unfold Compilation.addStub
  rw [hkind]
  split
  · next data _ =>
    obtain ⟨hstub, hnames⟩ := hgraph.build_eq hwf hevent env.schema c.cls c.classNetNames c.log log
    have hstubwf (stub : EventStub) (hstub : (EventStub.build g event env.schema c.cls
        c.classNetNames c.log).1 = some stub) : stub.graph.WellFormed :=
      EventStub.wellFormed_build hstub
    dsimp only [CompileEnv.saving]
    generalize EventStub.build g event env.schema c.cls c.classNetNames c.log = built at *
    generalize EventStub.build h event env.schema c.cls c.classNetNames log = built' at *
    obtain ⟨stub, names, log₁⟩ := built
    obtain ⟨stub', names', log₂⟩ := built'
    dsimp only at hstub hnames hstubwf ⊢
    subst hstub hnames
    cases stub' with
    | none => exact ⟨⟨_, _, rfl⟩, hcontexts⟩
    | some stub =>
      refine ⟨⟨_, _, rfl⟩, List.rel_append hcontexts (.cons ⟨id, ?_⟩ .nil)⟩
      exact ⟨(hstubwf stub rfl).framed, rfl⟩
  · exact ⟨⟨_, _, rfl⟩, hcontexts⟩

omit hf in
/-- What graphs add one by one, they add with frames too. -/
theorem foldl {α : Type} {l : List α} {f f' : Compilation → α → Compilation}
    (hstep : ∀ a ∈ l, ∀ {c d}, Framed c d → Framed (f c a) (f' d a)) {c d : Compilation}
    (hf : Framed c d) : Framed (l.foldl f c) (l.foldl f' d) :=
  List.foldl_rel (r := Framed) hf fun a ha _ _ hf ↦ hstep a ha hf

theorem addListed (hgraph : Graph.Framed ρ g h) (name : String) (flags : Blueprint → ContextFlags)
    (delegate : Option String) :
    Framed (c.addContext (c.listed name g (flags c.blueprint) delegate none))
      (d.addContext (d.listed name h (flags d.blueprint) delegate none)) := by
  obtain ⟨⟨log, contexts, rfl⟩, hcontexts⟩ := hf
  exact ⟨⟨_, _, rfl⟩, List.rel_append hcontexts (.cons ⟨ρ, hgraph, rfl⟩ .nil)⟩

theorem addFunctionGraph (hmacros : ∀ g ∈ c.blueprint.macroGraphs, g.WellFormed) (env : CompileEnv)
    (hg : g.WellFormed) : Framed (c.addFunctionGraph (env.saving false) g)
      (d.addFunctionGraph (env.saving true) g) := by
  obtain ⟨ρ, hgraph, hexpanded⟩ := hf.expand hmacros env hg.framed
  unfold Compilation.addFunctionGraph
  generalize c.expand (env.saving false) g = x at hgraph hexpanded ⊢
  generalize d.expand (env.saving true) g = y at hgraph hexpanded ⊢
  obtain ⟨g', c'⟩ := x
  obtain ⟨h', d'⟩ := y
  dsimp only at hgraph hexpanded ⊢
  rw [hgraph.functionName_eq]
  exact hexpanded.addListed hgraph g'.functionName (fun b ↦ {
    constFunction := b.blueprintType = .const, interfaceStub := b.blueprintType = .interface }) none

theorem addDelegateGraph (hmacros : ∀ g ∈ c.blueprint.macroGraphs, g.WellFormed) (env : CompileEnv)
    (hg : g.WellFormed) : Framed (c.addDelegateGraph (env.saving false) g)
      (d.addDelegateGraph (env.saving true) g) := by
  obtain ⟨ρ, hgraph, hexpanded⟩ := hf.expand hmacros env hg.framed
  unfold Compilation.addDelegateGraph
  generalize c.expand (env.saving false) g = x at hgraph hexpanded ⊢
  generalize d.expand (env.saving true) g = y at hgraph hexpanded ⊢
  obtain ⟨g', c'⟩ := x
  obtain ⟨h', d'⟩ := y
  exact hexpanded.addListed hgraph (Schema.delegateSignatureName g.name)
    (fun b ↦ { constFunction := b.blueprintType = .const }) (some g.name)

theorem addInterfaceGraph (hmacros : ∀ g ∈ c.blueprint.macroGraphs, g.WellFormed) (env : CompileEnv)
    (hg : g.WellFormed) : Framed (c.addInterfaceGraph (env.saving false) g)
      (d.addInterfaceGraph (env.saving true) g) := by
  obtain ⟨ρ, hgraph, hexpanded⟩ := hf.expand hmacros env hg.framed
  unfold Compilation.addInterfaceGraph
  generalize c.expand (env.saving false) g = x at hgraph hexpanded ⊢
  generalize d.expand (env.saving true) g = y at hgraph hexpanded ⊢
  obtain ⟨g', c'⟩ := x
  obtain ⟨h', d'⟩ := y
  dsimp only at hgraph hexpanded ⊢
  rw [hgraph.functionName_eq]
  exact hexpanded.addListed hgraph g'.functionName
    (fun b ↦ { constFunction := b.blueprintType = .const }) none

omit hf in
theorem eventGraph_eq (env : CompileEnv) (c : Compilation) : c.eventGraph env =
    let pages := c.pageGraph env
    let expanded := Compilation.expand env { c with log := pages.2 } pages.1
    let timed := expandTimelines expanded.1 c.blueprint.timelines expanded.2.log
    (timed.2.1, { expanded.2 with log := timed.2.2 }) := by
  unfold eventGraph Compilation.pageGraph
  dsimp only

theorem pageGraph (hpages : ∀ g ∈ c.blueprint.ubergraphPages, g.WellFormed) (env : CompileEnv) :
    ∃ ρ, Graph.Framed ρ (c.pageGraph (env.saving false)).1 (d.pageGraph (env.saving true)).1 := by
  obtain ⟨ρ, hmerged⟩ := framed_mergePages hpages env.schema.ubergraphFunctionName c.log d.log
  unfold Compilation.pageGraph
  rw [hf.blueprint]
  exact ⟨ρ, framed_spawnMissingEvents hmerged c.blueprint.implementedInterfaces _ _⟩

theorem eventGraph (hpages : ∀ g ∈ c.blueprint.ubergraphPages, g.WellFormed)
    (hmacros : ∀ g ∈ c.blueprint.macroGraphs, g.WellFormed) (env : CompileEnv) :
    ∃ ρ, Graph.Framed ρ (c.eventGraph (env.saving false)).1 (d.eventGraph (env.saving true)).1 ∧
      Framed (c.eventGraph (env.saving false)).2 (d.eventGraph (env.saving true)).2 := by
  obtain ⟨_, hpages⟩ := hf.pageGraph hpages env
  have htimelines : d.blueprint.timelines = c.blueprint.timelines := by rw [hf.blueprint]
  rw [eventGraph_eq, eventGraph_eq, htimelines]
  generalize c.pageGraph (env.saving false) = pages at hpages ⊢
  generalize d.pageGraph (env.saving true) = pages' at hpages ⊢
  obtain ⟨ρ, hgraph, hexpanded⟩ := (hf.setLog pages.2 pages'.2).expand hmacros env hpages
  dsimp only at hgraph hexpanded ⊢
  generalize Compilation.expand (env.saving false) _ pages.1 = x at hgraph hexpanded ⊢
  generalize Compilation.expand (env.saving true) _ pages'.1 = y at hgraph hexpanded ⊢
  exact ⟨ρ, framed_expandTimelines hgraph _ _ _, hexpanded.setLog _ _⟩

theorem addEventGraph (hpages : ∀ g ∈ c.blueprint.ubergraphPages, g.WellFormed)
    (hmacros : ∀ g ∈ c.blueprint.macroGraphs, g.WellFormed) (env : CompileEnv)
    (hnumbers : (d.eventContext (env.saving true)).numbers =
      (c.eventContext (env.saving false)).numbers) :
    Framed (c.addEventGraph (env.saving false)) (d.addEventGraph (env.saving true)) := by
  obtain ⟨ρ, hgraph, hevents⟩ := hf.eventGraph hpages hmacros env
  have hwf := (headed_eventGraph hpages hmacros (env.saving false)).1
  have hcontext : FunctionContext.Framed ρ (c.eventContext (env.saving false))
      (d.eventContext (env.saving true)) := by
    unfold eventContext
    generalize c.eventGraph (env.saving false) = x at hgraph hevents ⊢
    generalize d.eventGraph (env.saving true) = y at hgraph hevents ⊢
    unfold newContext
    rw [hevents.blueprint]
    exact ⟨hgraph, rfl⟩
  have hgraph' : (c.eventContext (env.saving false)).graph = (c.eventGraph (env.saving false)).1 :=
    (eventGraphOf_eventContext _ c).graph
  have hevent (n : NodeId)
      (hn : n ∈ (c.eventGraph (env.saving false)).1.nodesWhere (·.isEvent)) : ρ n = n := by
    obtain ⟨kind, hkind, hevent⟩ := hwf.mem_nodesWhere.1 hn
    refine hcontext.eq_of_numbers hnumbers ?_
    rw [FunctionContext.numbers, hgraph', List.mem_filter]
    refine ⟨hwf.mem_order_of_kind? hkind, ?_⟩
    obtain ⟨x, hx, rfl⟩ := Option.map_eq_some_iff.1 hkind
    have hshows := NodeKind.plain_of_isEvent hevent
    rw [FunctionContext.shows, hgraph', hx, Option.any_some, hshows.1, hshows.2, Bool.and_false]
    rfl
  have hevents' : (d.eventGraph (env.saving true)).1.nodesWhere (·.isEvent) =
      (c.eventGraph (env.saving false)).1.nodesWhere (·.isEvent) := by
    rw [hgraph.nodesWhere_eq fun _ ↦ rfl, List.map_congr_left hevent, List.map_id']
  rw [addEventGraph_eq, addEventGraph_eq, hevents']
  exact foldl (fun n hn {_ _} hf ↦ hf.addStub hgraph hwf (hevent n hn) env)
    (hevents.addContext hcontext)

end Framed

/-- If the same numbers show, then the same functions are listed, with frames in their graphs. -/
theorem framed_addFunctions {b : Blueprint} (hwf : b.WellFormed) {c : Compilation}
    (hblueprint : c.blueprint = b) (hnone : c.contexts = []) (env : CompileEnv)
    (hnumbers : (c.addFunctions (env.saving true)).contexts.map (·.numbers) =
      (c.addFunctions (env.saving false)).contexts.map (·.numbers)) :
    Framed (c.addFunctions (env.saving false)) (c.addFunctions (env.saving true)) := by
  let R (x y : Compilation) : Prop := Framed x y ∧ x.blueprint = b
  have hmacros {x : Compilation} (hx : x.blueprint = b) :
      ∀ g ∈ x.blueprint.macroGraphs, g.WellFormed := hx ▸ hwf.macros
  have hgraph {g : Graph} (hg : g ∈ b.functionGraphs ∨ g ∈ b.delegateSignatureGraphs ∨
      g ∈ b.implementedInterfaces.flatMap (·.graphs)) : g.WellFormed := by
    refine hwf g ?_
    simp only [Blueprint.allGraphs, List.mem_append]
    tauto
  have hevents : R (if c.blueprint.blueprintType.supportsEventGraphs &&
        !c.blueprint.ubergraphPages.isEmpty then c.addEventGraph (env.saving false) else c)
      (if c.blueprint.blueprintType.supportsEventGraphs &&
        !c.blueprint.ubergraphPages.isEmpty then c.addEventGraph (env.saving true) else c) := by
    by_cases hevents : (c.blueprint.blueprintType.supportsEventGraphs &&
        !c.blueprint.ubergraphPages.isEmpty) = true
    · rw [if_pos hevents, if_pos hevents]
      have hfirst (env : CompileEnv) : ∃ others,
          (c.addFunctions env).contexts = c.eventContext env :: others :=
        (contexts_addFunctions hevents hnone).imp fun _ h ↦ h.1
      obtain ⟨others, hothers⟩ := hfirst (env.saving false)
      obtain ⟨others', hothers'⟩ := hfirst (env.saving true)
      rw [hothers, hothers', List.map_cons, List.map_cons] at hnumbers
      refine ⟨(Framed.refl hnone).addEventGraph (hblueprint ▸ hwf.pages) (hmacros hblueprint) env
        (List.cons_eq_cons.1 hnumbers).1, ?_⟩
      exact (Lists.addEventGraph (sound_true _ b) ⟨hblueprint, fun _ _ ↦ trivial⟩).1
    · rw [if_neg hevents, if_neg hevents]
      exact ⟨.refl hnone, hblueprint⟩
  unfold addFunctions
  dsimp only
  rw [hblueprint] at hevents ⊢
  refine (List.foldl_rel (r := R) (List.foldl_rel (r := R) (List.foldl_rel (r := R) hevents
    fun g hg x y hxy ↦ ?_) fun g hg x y hxy ↦ ?_) fun g hg x y hxy ↦ ?_).1
  · exact ⟨hxy.1.addFunctionGraph (hmacros hxy.2) env (hgraph (.inl hg)), hxy.2⟩
  · exact ⟨hxy.1.addDelegateGraph (hmacros hxy.2) env (hgraph (.inr (.inl hg))), hxy.2⟩
  · exact ⟨hxy.1.addInterfaceGraph (hmacros hxy.2) env (hgraph (.inr (.inr hg))), hxy.2⟩

end Compilation

end VisualScript
