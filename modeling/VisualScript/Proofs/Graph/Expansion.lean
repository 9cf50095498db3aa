import VisualScript.Expand.EventGraph
import VisualScript.Expand.Macros
import VisualScript.Proofs.Graph.Fragment
import VisualScript.Proofs.Graph.Splicing

/-!
# Expanded macros and stubs

Replacing macro instances by the bodies of their macros keeps a graph well-formed
and the other nodes as they are.  So is the graph that is built for the stub of an event.
-/

namespace VisualScript

/-!
## Edits around nodes

Expansion and simplification add nodes, rewire pins and remove what they replace.
The nodes around which they work keep their kinds and pins.
-/

/-- Whether expansion or simplification takes the nodes of the kind away. -/
def NodeKind.isReplaced : NodeKind → Bool
  | macroInstance _ | tunnel _ | knot _ => true
  | _ => false

namespace Graph

/-- The node has the kind and the pins that it had, however these are wired. -/
structure KeepsNode (n : NodeId) (g g' : Graph) : Prop where
  kind? : g'.kind? n = g.kind? n
  pinsOf : g'.pinsOf n = g.pinsOf n
  faces : ∀ p ∈ g.pinsOf n, (g'.pin? p).map Pin.unwired = (g.pin? p).map Pin.unwired

namespace KeepsNode

variable {n m : NodeId} {g g' g'' : Graph}

theorem refl (n : NodeId) (g : Graph) : KeepsNode n g g := ⟨rfl, rfl, fun _ _ ↦ rfl⟩

theorem trans (h : KeepsNode n g g') (h' : KeepsNode n g' g'') : KeepsNode n g g'' where
  kind? := h'.kind?.trans h.kind?
  pinsOf := h'.pinsOf.trans h.pinsOf
  faces p hp := (h'.faces p (h.pinsOf ▸ hp)).trans (h.faces p hp)

theorem of_sameFaces (n : NodeId) (h : SameFaces g g') : KeepsNode n g g' :=
  ⟨h.kind?_eq n, h.pinsOf_eq n, fun p _ ↦ h.pins p⟩

theorem face (h : KeepsNode n g g') {β : Type} {f : Pin → β} (hf : ∀ pin, f pin.unwired = f pin)
    {p : PinId} (hp : p ∈ g.pinsOf n) : (g'.pin? p).map f = (g.pin? p).map f := by
  have hface := congrArg (Option.map f) (h.faces p hp)
  rwa [Option.map_map, Option.map_map, show f ∘ Pin.unwired = f from funext hf] at hface

theorem filteredPins (h : KeepsNode n g g') (direction : Direction) (exec : Bool) :
    g'.filteredPins n direction exec = g.filteredPins n direction exec := by
  have hany (q : Pin → Bool) (o : Option Pin) : o.any q = (o.map q).getD false := by
    cases o <;> rfl
  rw [Graph.filteredPins, h.pinsOf]
  refine List.filter_congr fun p hp ↦ ?_
  rw [hany, hany, h.face (fun _ ↦ rfl) hp]

theorem findPin? (h : KeepsNode n g g') (name : String) (direction : Option Direction) :
    g'.findPin? n name direction = g.findPin? n name direction :=
  findPin?_congr h.pinsOf h.faces name direction

/-- The node itself and its pins are the same. -/
theorem of_eq (hnode : g'.node? n = g.node? n) (hpins : ∀ p ∈ g.pinsOf n, g'.pin? p = g.pin? p) :
    KeepsNode n g g' where
  kind? := by rw [Graph.kind?, hnode, Graph.kind?]
  pinsOf := by rw [Graph.pinsOf, hnode, Graph.pinsOf]
  faces p hp := by rw [hpins p hp]

theorem modifyNode (n m : NodeId) (g : Graph) {f : Node → Node}
    (hf : ∀ node, (f node).kind = node.kind ∧ (f node).pins = node.pins) :
    KeepsNode n g (g.modifyNode m f) where
  kind? := by
    rw [Graph.kind?, node?_modifyNode, Graph.kind?]
    split
    · rw [Option.map_map]
      exact Option.map_congr fun node _ ↦ (hf node).1
    · rfl
  pinsOf := by
    rw [Graph.pinsOf, node?_modifyNode, Graph.pinsOf]
    split
    · rw [Option.map_map]
      exact congrArg (·.getD []) (Option.map_congr fun node _ ↦ (hf node).2)
    · rfl
  faces _ _ := rfl

/-! ### Growing graphs -/

/-- The pins that a node of the graph lists are there. -/
theorem isSome_pin? (hwf : g.WellFormed) {p : PinId} (hp : p ∈ g.pinsOf n) :
    ∃ pin, g.pin? p = some pin := by
  obtain ⟨pin, hpin, -⟩ := ownerOf?_eq_some.1 ((hwf.mem_pinsOf n p).1 hp)
  exact ⟨pin, hpin⟩

theorem allocPin (hwf : g.WellFormed) (hne : n ≠ m) (direction : Direction)
    (desc : PinDescription) : KeepsNode n g (g.allocPin m direction desc).2 := by
  refine .of_eq ?_ fun p hp ↦ ?_
  · rw [node?_allocPin, if_neg hne.symm]
  · obtain ⟨pin, hpin⟩ := isSome_pin? hwf hp
    rw [pin?_allocPin, if_neg]
    rintro rfl
    rw [pin?_fresh] at hpin
    cases hpin

theorem spawn (hwf : g.WellFormed) (hn : g.contains n = true) (kind : NodeKind) :
    KeepsNode n g (g.spawn kind).2 := by
  have hlt {p : PinId} (hp : p ∈ g.pinsOf n) : p.index < g.pins.size := by
    obtain ⟨pin, hpin⟩ := isSome_pin? hwf hp
    exact lt_of_pin?_eq_some hpin
  have hne : n ≠ ⟨g.nodes.size⟩ := by
    rintro rfl
    exact absurd (lt_of_isSome_node? hn) (Nat.lt_irrefl _)
  have hstart : KeepsNode n g { g with
      nodes := g.nodes.push { id := ⟨g.nodes.size⟩, kind, pins := [] }
      order := g.order ++ [⟨g.nodes.size⟩] } := by
    refine .of_eq ?_ fun _ _ ↦ rfl
    obtain ⟨i⟩ := n
    have hi : i ≠ g.nodes.size := fun heq ↦ hne (congrArg NodeId.mk heq)
    simp [node?, hi]
  -- the pins of the new node come after all pins that were there
  have hpins (pins : List (Direction × PinDescription)) (g' : Graph) (h : KeepsNode n g g')
      (hsize : g.pins.size ≤ g'.pins.size) : KeepsNode n g
        (pins.foldl (fun g' p ↦ (g'.allocPin ⟨g.nodes.size⟩ p.1 p.2).2) g') := by
    induction pins generalizing g' with
    | nil => exact h
    | cons p pins ih =>
      refine ih _ (h.trans (.of_eq ?_ fun q hq ↦ ?_)) ?_
      · rw [node?_allocPin, if_neg hne.symm]
      · rw [pin?_allocPin, if_neg]
        rintro rfl
        rw [h.pinsOf] at hq
        exact absurd (hlt hq) (Nat.not_lt.2 hsize)
      · exact Nat.le_trans hsize (Nat.le_trans (Nat.le_succ _) (Nat.le_of_eq
          (Slots.size_push _ _).symm))
  exact hpins kind.startingPins _ hstart (Nat.le_refl _)

theorem spawnIntermediate (hwf : g.WellFormed) (hn : g.contains n = true) (kind : NodeKind) :
    KeepsNode n g (g.spawnIntermediate kind).2 :=
  (spawn hwf hn kind).trans (modifyNode n _ _ fun _ ↦ by exact ⟨rfl, rfl⟩)

theorem mergeFragment {fragment : Graph} (hwf : g.WellFormed) (h : fragment.WellFormed)
    (hn : g.contains n = true) : KeepsNode n g (g.mergeFragment fragment).2 := by
  refine .of_eq ?_ fun p hp ↦ ?_
  · rw [node?_mergeFragment, if_pos (lt_of_isSome_node? hn)]
  · obtain ⟨pin, hpin⟩ := isSome_pin? hwf hp
    rw [pin?_mergeFragment g h, if_pos (lt_of_pin?_eq_some hpin)]

theorem removeNode (hwf : g.WellFormed) (hne : n ≠ m) : KeepsNode n g (g.removeNode m) := by
  cases hm : g.contains m with
  | false =>
    rw [removeNode_of_not_contains hm]
    exact refl n g
  | true =>
    have hnode := node?_removeNode_of_ne hm hne
    refine ⟨?_, ?_, fun p hp ↦ unwired_removeNode hm fun hp' ↦ hne ?_⟩
    · rw [Graph.kind?, hnode, Graph.kind?]
    · rw [Graph.pinsOf, hnode, Graph.pinsOf]
    · exact hwf.eq_of_mem_pinsOf hp hp'

end KeepsNode

/-- The graph was edited around some nodes that are not replaced. -/
structure Around (ns : List NodeId) (g₀ g : Graph) : Prop where
  wellFormed : g.WellFormed
  stays : ∀ n ∈ ns, ∃ kind, g.kind? n = some kind ∧ kind.isReplaced = false
  keeps : ∀ n ∈ ns, KeepsNode n g₀ g

namespace Around

variable {ns : List NodeId} {g₀ g g' : Graph} {m : NodeId} (h : Around ns g₀ g)
include h

theorem contains {n : NodeId} (hn : n ∈ ns) : g.contains n = true := by
  obtain ⟨kind, hkind, -⟩ := h.stays n hn
  obtain ⟨node, hnode, -⟩ := Option.map_eq_some_iff.1 hkind
  rw [Graph.contains, hnode]
  rfl

theorem edit (hwf : g'.WellFormed) (hkeeps : ∀ n ∈ ns, KeepsNode n g g') : Around ns g₀ g' where
  wellFormed := hwf
  stays n hn := by
    rw [(hkeeps n hn).kind?]
    exact h.stays n hn
  keeps n hn := (h.keeps n hn).trans (hkeeps n hn)

theorem sameFaces (hfaces : SameFaces g g') : Around ns g₀ g' :=
  h.edit (hfaces.sameBooks.wellFormed h.wellFormed) fun n _ ↦ .of_sameFaces n hfaces

/-- Changing what is no link, kind or pin. -/
theorem adorn (m : NodeId) {f : Node → Node}
    (hf : ∀ node, (f node).id = node.id ∧ (f node).kind = node.kind ∧ (f node).pins = node.pins) :
    Around ns g₀ (g.modifyNode m f) := by
  refine h.edit ((SameBooks.modifyNode g m fun node ↦ ?_).wellFormed h.wellFormed)
    fun n _ ↦ .modifyNode n m g fun node ↦ ?_
  · exact ⟨(hf node).1, (hf node).2.2⟩
  · exact (hf node).2

theorem spawnIntermediate (kind : NodeKind) : Around ns g₀ (g.spawnIntermediate kind).2 :=
  h.edit (h.wellFormed.spawnIntermediate kind) fun _ hn ↦
    .spawnIntermediate h.wellFormed (h.contains hn) kind

/-- A pin of a node that is not among those. -/
theorem addPin (hm : m ∉ ns) {direction : Direction} {desc : PinDescription} {p : PinId}
    (hadd : g.addPin m direction desc = .ok (p, g')) : Around ns g₀ g' := by
  refine h.edit (h.wellFormed.addPin hadd) fun n hn ↦ ?_
  unfold Graph.addPin at hadd
  split at hadd
  · cases hadd
    refine .allocPin h.wellFormed ?_ direction desc
    rintro rfl
    exact hm hn
  · cases hadd

theorem mergeFragment {fragment : Graph} (hfragment : fragment.WellFormed) :
    Around ns g₀ (g.mergeFragment fragment).2 :=
  h.edit (h.wellFormed.mergeFragment hfragment) fun _ hn ↦
    .mergeFragment h.wellFormed hfragment (h.contains hn)

theorem removeNode (hm : m ∉ ns) : Around ns g₀ (g.removeNode m) := by
  refine h.edit (h.wellFormed.removeNode m) fun n hn ↦ .removeNode h.wellFormed ?_
  rintro rfl
  exact hm hn

theorem notMem {kind : NodeKind} (hkind : g.kind? m = some kind)
    (hreplaced : kind.isReplaced = true) : m ∉ ns := by
  intro hm
  obtain ⟨kind', hkind', hstays⟩ := h.stays m hm
  cases hkind.symm.trans hkind'
  rw [hstays] at hreplaced
  cases hreplaced

theorem fresh_notMem (kind : NodeKind) : (g.spawnIntermediate kind).1 ∉ ns := by
  intro hn
  exact absurd (lt_of_isSome_node? (h.contains hn)) (Nat.lt_irrefl _)

end Around

end Graph

namespace Graph

/-! ## What expansion keeps -/

/-- A property of graphs that is kept when nodes are expanded around the anchored ones: nodes are
added and adorned, pins rewired and bodies merged in, but an anchored node gets no pins and is not
taken away. -/
structure KeptAround (anchored : NodeId → Prop) (body P : Graph → Prop) : Prop where
  sameFaces : ∀ {g g' : Graph}, P g → SameFaces g g' → P g'
  adorn : ∀ {g : Graph} (m : NodeId) {f : Node → Node}, P g →
    (∀ node, (f node).id = node.id ∧ (f node).kind = node.kind ∧ (f node).pins = node.pins) →
      P (g.modifyNode m f)
  spawnIntermediate : ∀ {g : Graph} (kind : NodeKind), P g → P (g.spawnIntermediate kind).2
  addPin : ∀ {g g' : Graph} {m : NodeId} {direction : Direction} {desc : PinDescription} {p : PinId},
    P g → ¬anchored m → g.addPin m direction desc = .ok (p, g') → P g'
  mergeFragment : ∀ {g fragment : Graph}, P g → body fragment → P (g.mergeFragment fragment).2
  removeNode : ∀ {g : Graph} {m : NodeId}, P g → ¬anchored m → P (g.removeNode m)
  /-- What is replaced is not anchored, and neither is the node that comes next. -/
  free : ∀ {g : Graph} {m : NodeId} {kind : NodeKind}, P g → g.kind? m = some kind →
    kind.isReplaced = true → ¬anchored m
  fresh : ∀ {g : Graph}, P g → ¬anchored ⟨g.nodes.size⟩
  mem_nodesWhere : ∀ {g : Graph} {p : NodeKind → Bool} {m : NodeId}, P g → m ∈ g.nodesWhere p →
    ∃ kind, g.kind? m = some kind ∧ p kind = true

theorem keptAround_around (ns : List NodeId) (g₀ : Graph) :
    KeptAround (· ∈ ns) WellFormed (Around ns g₀) where
  sameFaces h hfaces := h.sameFaces hfaces
  adorn m _ h hf := h.adorn m hf
  spawnIntermediate kind h := h.spawnIntermediate kind
  addPin h hm hadd := h.addPin hm hadd
  mergeFragment h hfragment := h.mergeFragment hfragment
  removeNode h hm := h.removeNode hm
  free h hkind hreplaced := h.notMem hkind hreplaced
  fresh h := h.fresh_notMem (.functionEntry {})
  mem_nodesWhere h hm := h.wellFormed.mem_nodesWhere.1 hm

/-- A well-formed graph stays so, whatever is expanded. -/
theorem keptAround_wellFormed : KeptAround (fun _ ↦ False) WellFormed WellFormed where
  sameFaces h hfaces := hfaces.sameBooks.wellFormed h
  adorn m _ h hf := (SameBooks.modifyNode _ m fun node ↦ ⟨(hf node).1, (hf node).2.2⟩).wellFormed h
  spawnIntermediate kind h := h.spawnIntermediate kind
  addPin h _ hadd := h.addPin hadd
  mergeFragment h hfragment := h.mergeFragment hfragment
  removeNode h _ := h.removeNode _
  free _ _ _ := id
  fresh _ := id
  mem_nodesWhere h hm := h.mem_nodesWhere.1 hm

namespace KeptAround

variable {anchored : NodeId → Prop} {body P : Graph → Prop} (hP : KeptAround anchored body P)
  {g : Graph}
include hP

theorem setPosition (h : P g) (m : NodeId) (x y : Int) : P (g.setPosition m x y) :=
  hP.adorn m h fun _ ↦ ⟨rfl, rfl, rfl⟩

theorem offsetNodes (h : P g) (ids : List NodeId) (dx dy : Int) : P (g.offsetNodes ids dx dy) :=
  List.foldlRecOn (motive := P) ids _ h fun _ hg m _ ↦ hP.adorn m hg fun _ ↦ ⟨rfl, rfl, rfl⟩

theorem placeLeftOf (h : P g) (n beside : NodeId) : P (g.placeLeftOf n beside) := by
  unfold Graph.placeLeftOf
  split
  · exact hP.setPosition h _ _ _
  · exact h

theorem placeSection (h : P g) (grid : SpawnGrid) (ids : List NodeId) (label : String) :
    P (grid.placeSection g ids label).2.2 := by
  unfold SpawnGrid.placeSection
  split
  · exact h
  · exact hP.setPosition (hP.spawnIntermediate _ (hP.offsetNodes h ids _ _)) _ _ _

end KeptAround

theorem wellFormed_empty (name : String) : (Graph.empty name).WellFormed := by
  have hnode (n : NodeId) : (Graph.empty name).node? n = none :=
    Slots.get?_eq_none_of_size_le (Nat.zero_le _)
  have hpin (p : PinId) : (Graph.empty name).pin? p = none :=
    Slots.get?_eq_none_of_size_le (Nat.zero_le _)
  refine ⟨List.nodup_nil, fun n ↦ ?_, fun n node h ↦ ?_, fun n ↦ ?_, fun n p ↦ ?_⟩
  · rw [hnode]
    exact iff_of_false List.not_mem_nil Bool.false_ne_true
  · rw [hnode] at h
    cases h
  · rw [pinsOf, hnode]
    exact List.nodup_nil
  · rw [pinsOf, hnode, ownerOf?, hpin]
    exact iff_of_false List.not_mem_nil (Option.some_ne_none n).symm

/-! ## Bodies -/

theorem sameBooks_resolveWildcards (g : Graph) (resolved : PinType) :
    SameBooks g (g.resolveWildcards resolved) :=
  .foldl (fun g p ↦ .modifyPin g p fun _ ↦ by split <;> rfl) _ g

theorem WellFormed.macroBody {source : Graph} (h : source.WellFormed) (data : MacroData) :
    (source.macroBody data).WellFormed := by
  have hcopy : (source.copyAs (source.name ++ "_expansion")).WellFormed :=
    ⟨h.nodup_order, h.mem_order, h.id_eq, h.nodup_pinsOf, h.mem_pinsOf⟩
  unfold Graph.macroBody
  dsimp only
  split
  · exact (sameBooks_resolveWildcards _ _).wellFormed hcopy
  · exact hcopy

/-! ## Tunnels -/

theorem sameFaces_wire (g : Graph) (sources targets : List PinId) (boundary : PinId) :
    SameFaces g (g.wire sources targets boundary).1 := by
  unfold wire
  split
  · exact .foldl (fun g t ↦ sameFaces_setDefaults g t _ _) targets g
  · exact sameFaces_linkPairs g _

theorem sameFaces_rewireThrough (g : Graph) (instPin tunnelPin : PinId) (entry : Bool) :
    SameFaces g (g.rewireThrough instPin tunnelPin entry).1 := by
  refine (sameFaces_breakPinLinks g tunnelPin).trans ?_
  unfold rewireThrough
  dsimp only
  split
  · exact sameFaces_wire _ _ _ _
  · exact sameFaces_wire _ _ _ _

end Graph

/-! ## Instances -/

namespace Graph.KeptAround

open Expansion

variable {anchored : NodeId → Prop} {body P : Graph → Prop} (hP : KeptAround anchored body P)
  {e : Expansion} (h : P e.graph)

omit hP in
theorem foldl {α : Type} {f : Expansion → α → Expansion} {l : List α}
    (hf : ∀ e, ∀ a ∈ l, P e.graph → P (f e a).graph) {e : Expansion} (h : P e.graph) :
    P (l.foldl f e).graph :=
  List.foldlRecOn (motive := fun e : Expansion ↦ P e.graph) l f h fun e he a ha ↦ hf e a ha he

include hP h

theorem addEmptyArray (inst : NodeId) (p : PinId) : P (addEmptyArray inst e p).graph := by
  unfold Expansion.addEmptyArray
  split
  · exact h
  · split
    · exact h
    · next pin _ _ =>
      have hplaced := hP.placeLeftOf (hP.spawnIntermediate (.makeArray pin.ty.element 0) h)
        (e.graph.spawnIntermediate (.makeArray pin.ty.element 0)).1 inst
      dsimp only
      split
      · exact hplaced
      · split
        · next hlink => exact hP.sameFaces hplaced (sameFaces_makeLink hlink)
        · exact hplaced

theorem addEmptyArrays (inst : NodeId) : P (e.addEmptyArrays inst).graph :=
  foldl (fun _ p _ he ↦ hP.addEmptyArray he inst p) h

theorem recordCopies (source body : Graph) (inst : NodeId) (r : Remap) :
    P (e.recordCopies source body inst r).graph := by
  refine foldl (fun e old _ he ↦ ?_) h
  split
  · exact he
  · exact hP.adorn _ he fun _ ↦ ⟨rfl, rfl, rfl⟩

theorem placeCopies (source : Graph) (inst : NodeId) (copies : List NodeId) (keep : Bool) :
    P (e.placeCopies source inst copies keep).graph := by
  unfold Expansion.placeCopies
  split
  · exact hP.placeSection h e.grid copies _
  · split
    · exact h
    · exact hP.offsetNodes h _ _ _

theorem collapsePin (tunnel inst : NodeId) (entry : Bool) (p : PinId) :
    P (collapsePin tunnel inst entry e p).graph := by
  unfold Expansion.collapsePin
  extract_lets side
  split
  · exact h
  · split
    · exact h
    · split
      · exact h
      · next instPin _ =>
        have hwire := hP.sameFaces h (sameFaces_rewireThrough e.graph instPin p entry)
        dsimp only
        split
        · exact hwire
        · exact hwire

theorem collapseTunnel (inst tunnel : NodeId) : P (collapseTunnel inst e tunnel).graph := by
  unfold Expansion.collapseTunnel
  split
  · next hkind =>
    refine hP.removeNode ?_ (hP.free h hkind rfl)
    exact foldl (fun _ p _ he ↦ hP.collapsePin he tunnel inst _ p) h
  · exact h

/-- An instance is replaced by the body of its macro. -/
theorem expandInstance {macros : List Graph}
    (hmacros : ∀ source ∈ macros, ∀ data, body (source.macroBody data)) (keep : Bool)
    (inst : NodeId) : P (expandInstance macros keep e inst).graph := by
  unfold Expansion.expandInstance
  split
  · next data hkind =>
    have hinst : ¬anchored inst := hP.free h hkind rfl
    split
    · exact hP.removeNode h hinst
    · next source hsource =>
      have hbody := hmacros source (List.mem_of_find?_eq_some hsource) data
      refine hP.removeNode ?_ hinst
      refine foldl (fun _ tunnel _ he ↦ hP.collapseTunnel he inst tunnel) ?_
      refine hP.placeCopies ?_ source inst _ keep
      exact hP.recordCopies (hP.mergeFragment (hP.addEmptyArrays h inst) hbody) source _ inst _
  · exact h

theorem expandPasses {macros : List Graph}
    (hmacros : ∀ source ∈ macros, ∀ data, body (source.macroBody data)) (keep : Bool)
    (passes : Nat) : P (expandPasses macros keep passes e).graph := by
  induction passes generalizing e with
  | zero =>
    -- which instances are given up is known from the graph as the pass begins
    refine foldl (fun e' inst hinst he ↦ hP.removeNode he ?_) h
    obtain ⟨kind, hkind, hinstance⟩ := hP.mem_nodesWhere h hinst
    refine hP.free h hkind ?_
    cases kind with
    | macroInstance data => rfl
    | _ => cases hinstance
  | succ passes ih =>
    unfold Expansion.expandPasses
    split
    · exact h
    · exact ih (foldl (fun _ inst _ he ↦ hP.expandInstance he hmacros keep inst) h)

omit h in
/-- Macros are expanded around all other nodes. -/
theorem expandMacros {g : Graph} (h : P g) {macros : List Graph}
    (hmacros : ∀ source ∈ macros, ∀ data, body (source.macroBody data)) (log : MessageLog)
    (keep : Bool) : P (expandMacros g macros log keep).graph :=
  hP.expandPasses h hmacros keep _

end Graph.KeptAround

/-- Expanding macros keeps a graph well-formed. -/
theorem Graph.WellFormed.expandMacros {g : Graph} (h : g.WellFormed) {macros : List Graph}
    (hmacros : ∀ g ∈ macros, g.WellFormed) (log : MessageLog) (keep : Bool) :
    (VisualScript.expandMacros g macros log keep).graph.WellFormed :=
  keptAround_wellFormed.expandMacros h (fun g hg data ↦ (hmacros g hg).macroBody data) log keep

/-! ## Stubs -/

theorem bind_eq_ok {α β ε : Type} {x : Except ε α} {f : α → Except ε β} {b : β} :
    (x >>= f) = .ok b ↔ ∃ a, x = .ok a ∧ f a = .ok b := by
  cases x with
  | error e => exact ⟨fun h ↦ (nomatch h), fun ⟨_, h, _⟩ ↦ (nomatch h)⟩
  | ok a =>
    constructor
    · exact fun h ↦ ⟨a, rfl, h⟩
    · rintro ⟨a, ⟨⟩, h⟩
      exact h

namespace EventStub

open VisualScript.Graph

theorem sameBooks_connect {g g' : Graph} {source target : NodeId} {output input : String}
    (h : g.connect source output target input = .ok g') : SameBooks g g' := by
  obtain ⟨a, -, h⟩ := bind_eq_ok.1 h
  obtain ⟨b, -, h⟩ := bind_eq_ok.1 h
  exact sameBooks_makeLink h

theorem wellFormed_storeParameter {entry assign : NodeId} {g g' : Graph}
    {p : EventParameter × String} (h : g.WellFormed)
    (hstore : storeParameter entry assign g p = .ok g') : g'.WellFormed := by
  unfold storeParameter at hstore
  obtain ⟨⟨param, g₁⟩, hparam, hstore⟩ := bind_eq_ok.1 hstore
  obtain ⟨⟨input, g₂⟩, hinput, hstore⟩ := bind_eq_ok.1 hstore
  exact (sameBooks_makeLink hstore).wellFormed ((h.addPin hparam).addPin hinput)

theorem wellFormed_storeParameters {entry assign : NodeId} {g g' : Graph}
    {params : List (EventParameter × String)} (h : g.WellFormed)
    (hstore : params.foldlM (storeParameter entry assign) g = .ok g') : g'.WellFormed := by
  induction params generalizing g with
  | nil =>
    cases hstore
    exact h
  | cons p params ih =>
    obtain ⟨g₁, hfirst, hrest⟩ := bind_eq_ok.1 hstore
    exact ih (wellFormed_storeParameter h hfirst) hrest

theorem wellFormed_wire {g g' : Graph} {entry call : NodeId}
    {params : List (EventParameter × String)} (h : g.WellFormed)
    (hwire : wire g entry call params = .ok g') : g'.WellFormed := by
  unfold wire at hwire
  obtain ⟨⟨p, g₁⟩, hpin, hwire⟩ := bind_eq_ok.1 hwire
  have hwf := h.addPin hpin
  dsimp only at hwire
  split at hwire
  · exact (sameBooks_connect hwire).wellFormed hwf
  · have hassign := (sameBooks_setPosition _ (g₁.spawnIntermediate (.variableSet none)).1
      SpawnGrid.nodeWidth 0).wellFormed (hwf.spawnIntermediate (.variableSet none))
    obtain ⟨g₂, hstore, hwire⟩ := bind_eq_ok.1 hwire
    obtain ⟨g₃, hentry, hcall⟩ := bind_eq_ok.1 hwire
    have hstored := wellFormed_storeParameters hassign hstore
    exact (sameBooks_connect hcall).wellFormed ((sameBooks_connect hentry).wellFormed hstored)

/-- The graph of a stub is well-formed. -/
theorem wellFormed_build {ubergraph : Graph} {event : NodeId} {schema : Schema} {parent : Class}
    {names : NetNameMap} {log : MessageLog} {stub : EventStub}
    (h : (build ubergraph event schema parent names log).1 = some stub) :
    stub.graph.WellFormed := by
  unfold build at h
  split at h
  · next data _ =>
    dsimp only at h
    split at h
    · cases h
    · split at h
      · cases h
      · next hwire =>
        cases h
        refine wellFormed_wire ?_ hwire
        refine (sameBooks_setPosition _ _ _ _).wellFormed ?_
        exact ((wellFormed_empty data.function).spawnIntermediate _).spawnIntermediate _
  · cases h

end EventStub

end VisualScript
