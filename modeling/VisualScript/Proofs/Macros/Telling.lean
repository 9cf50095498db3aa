import VisualScript.Proofs.Macros.Transparency

/-!
# Expansion tells what fails

Expanding an instance succeeds if and only if no error is logged.  The only errors are
an unknown macro, a tunnel pin without a counterpart on the instance and an instance
that is left after the last pass: empty arrays are always made, and if nothing was
reported then every pin of a tunnel has found its counterpart.
-/

namespace VisualScript.Expansion

open VisualScript.Graph

/-! ## Success and errors -/

/-- What was done since has succeeded if and only if it logged no error. -/
structure Tells (e e' : Expansion) : Prop where
  errors : e.log.numErrors ≤ e'.log.numErrors
  ok : e'.ok = true ↔ e.ok = true ∧ e'.log.numErrors ≤ e.log.numErrors

namespace Tells

variable {e e' e'' : Expansion}

theorem refl (e : Expansion) : Tells e e := ⟨Nat.le_refl _, (and_iff_left (Nat.le_refl _)).symm⟩

theorem trans (h : Tells e e') (h' : Tells e' e'') : Tells e e'' where
  errors := Nat.le_trans h.errors h'.errors
  ok := by
    have hfirst := h.errors
    have hlater := h'.errors
    rw [h'.ok, h.ok, and_assoc]
    refine and_congr_right fun _ ↦ ⟨fun ⟨_, _⟩ ↦ by omega, fun _ ↦ by omega⟩

theorem of_eq (hok : e'.ok = e.ok) (herrors : e'.log.numErrors = e.log.numErrors) :
    Tells e e' where
  errors := Nat.le_of_eq herrors.symm
  ok := by rw [hok, herrors, and_iff_left (Nat.le_refl _)]

/-- The graph does not matter. -/
theorem graph (h : Tells e e') (g : Graph) : Tells e { e' with graph := g } := ⟨h.errors, h.ok⟩

theorem fail (e : Expansion) (text : String) (tokens : List SourceToken) :
    Tells e (e.fail text tokens) where
  errors := Nat.le_succ _
  ok := iff_of_false Bool.false_ne_true fun h ↦ Nat.not_succ_le_self _ h.2

theorem foldl {α : Type} {f : Expansion → α → Expansion} (hf : ∀ e a, Tells e (f e a)) (l : List α)
    (e : Expansion) : Tells e (l.foldl f e) :=
  List.foldlRecOn (motive := fun e' ↦ Tells e e') l f (.refl e) fun e' he' a _ ↦ he'.trans (hf e' a)

end Tells

theorem tells_collapsePin (tunnel inst : NodeId) (entry : Bool) (e : Expansion) (p : PinId) :
    Tells e (collapsePin tunnel inst entry e p) := by
  unfold collapsePin
  extract_lets side
  split
  · exact .refl e
  · split
    · exact .refl e
    · split
      · exact .fail e _ _
      · next instPin _ =>
        dsimp only
        split
        · exact (Tells.refl e).graph _
        · exact ((Tells.refl e).graph _).trans (.fail _ _ _)

theorem tells_collapseTunnel (inst : NodeId) (e : Expansion) (tunnel : NodeId) :
    Tells e (collapseTunnel inst e tunnel) := by
  unfold collapseTunnel
  split
  · exact (Tells.foldl (tells_collapsePin tunnel inst _) _ e).graph _
  · exact .refl e

/-! ## Empty arrays -/

/-- An input of a node that is there can be wired to a new array. -/
theorem exists_makeLink_spawnArray {g : Graph} {p : PinId} {pin : Pin} (hpin : g.pin? p = some pin)
    (hinput : pin.direction = .input) (howner : pin.owner.index < g.nodes.size)
    (element : PinType) (beside : NodeId) :
    ∃ g', (g.spawnArray element beside).makeLink ⟨g.pins.size⟩ p = .ok g' := by
  have hnew : (g.spawnArray element beside).pin? ⟨g.pins.size⟩ = some (g.arrayOutput element) := by
    rw [pin?_spawnArray, if_pos rfl]
  have hold := pin?_spawnArray_of_some element beside hpin
  have hdirection : (g.arrayOutput element).direction ≠ pin.direction := by
    rw [hinput]
    exact Direction.noConfusion
  have hnode : (g.arrayOutput element).owner ≠ pin.owner := by
    intro heq
    exact absurd (congrArg NodeId.index heq) (Nat.ne_of_gt howner)
  exact (joins_of_pin? hnew hold hnode.symm hdirection.symm).exists_makeLink

/-- An input is left alone or wired to an empty array. -/
theorem addEmptyArray_eq {e : Expansion} {inst : NodeId} {p : PinId} {pin : Pin} {g : Graph}
    (hpin : e.graph.pin? p = some pin)
    (hlink : (e.graph.spawnArray pin.ty.element inst).makeLink ⟨e.graph.pins.size⟩ p = .ok g) :
    addEmptyArray inst e p = e ∨ addEmptyArray inst e p = { e with graph := g } := by
  have hfind := e.graph.findPin?_spawnArray pin.ty.element inst
  unfold addEmptyArray
  rw [hpin]
  dsimp only
  split
  · exact .inl rfl
  · refine .inr ?_
    rw [spawnArray] at hfind hlink
    have hspawn : e.graph.spawnIntermediate (.makeArray pin.ty.element 0) =
      (⟨e.graph.nodes.size⟩, (e.graph.spawnIntermediate (.makeArray pin.ty.element 0)).2) := rfl
    rw [hspawn]
    dsimp only
    rw [hfind]
    dsimp only
    rw [hlink]

/-- The pin is an input of a node that is there. -/
def IsInput (g : Graph) (p : PinId) : Prop :=
  ∃ pin, g.pin? p = some pin ∧ pin.direction = .input ∧ pin.owner.index < g.nodes.size

theorem addEmptyArray_of_isInput {e : Expansion} {p : PinId} (hp : IsInput e.graph p)
    (inst : NodeId) : (∃ g, addEmptyArray inst e p = { e with graph := g }) ∧
      ∀ q, IsInput e.graph q → IsInput (addEmptyArray inst e p).graph q := by
  obtain ⟨pin, hpin, hinput, howner⟩ := hp
  obtain ⟨g, hlink⟩ := exists_makeLink_spawnArray hpin hinput howner pin.ty.element inst
  rcases addEmptyArray_eq hpin hlink with heq | heq
  · rw [heq]
    exact ⟨⟨e.graph, rfl⟩, fun _ hq ↦ hq⟩
  · rw [heq]
    refine ⟨⟨g, rfl⟩, fun q ⟨other, hother, hinput', howner'⟩ ↦ ?_⟩
    have hface := (sameFaces_makeLink hlink).pins q
    rw [pin?_spawnArray_of_some _ inst hother, Option.map_some] at hface
    obtain ⟨other', hother', hunwired⟩ := Option.map_eq_some_iff.1 hface
    have hdirection : other'.direction = other.direction := (congrArg Pin.direction hunwired :)
    have hnode : other'.owner = other.owner := (congrArg Pin.owner hunwired :)
    have hsize := (makeLink_sizes hlink).1
    rw [spawnArray_nodes_size] at hsize
    refine ⟨other', hother', hdirection.trans hinput', ?_⟩
    rw [hnode]
    exact Nat.lt_trans howner' (hsize ▸ Nat.lt_succ_self _)

/-- Empty arrays are always made. -/
theorem addEmptyArrays_eq {e : Expansion} (hwf : e.graph.WellFormed) (inst : NodeId) :
    ∃ g, e.addEmptyArrays inst = { e with graph := g } := by
  have hrun (ps : List PinId) (e : Expansion) (hps : ∀ p ∈ ps, IsInput e.graph p) :
      ∃ g, ps.foldl (addEmptyArray inst) e = { e with graph := g } := by
    induction ps generalizing e with
    | nil => exact ⟨e.graph, rfl⟩
    | cons p ps ih =>
      obtain ⟨⟨g, hfirst⟩, hkeep⟩ := addEmptyArray_of_isInput (hps p List.mem_cons_self) inst
      obtain ⟨g', hrest⟩ := ih _ fun q hq ↦ hkeep q (hps q (List.mem_cons_of_mem p hq))
      refine ⟨g', hrest.trans ?_⟩
      rw [hfirst]
  refine hrun _ e fun p hp ↦ ?_
  obtain ⟨-, pin, hpin, hdirection, -⟩ := mem_filteredPins.1 hp
  exact ⟨pin, hpin, hdirection,
    lt_of_isSome_node? ((hwf.mem_order _).1 (hwf.owner_mem_order hpin))⟩

/-! ## Instances -/

theorem tells_recordCopies (e : Expansion) (source body : Graph) (inst : NodeId) (r : Remap) :
    Tells e (e.recordCopies source body inst r) := by
  refine .of_eq ?_ (dressed_recordCopies e source body inst r).2
  unfold recordCopies
  refine List.foldlRecOn (motive := fun e' : Expansion ↦ e'.ok = e.ok) _ _ rfl fun e' he' old _ ↦ ?_
  split
  · exact he'
  · exact he'

theorem tells_placeCopies (e : Expansion) (source : Graph) (inst : NodeId) (copies : List NodeId)
    (keep : Bool) : Tells e (e.placeCopies source inst copies keep) := by
  unfold placeCopies
  split
  · refine .of_eq rfl ?_
    dsimp only
    split
    · exact MessageLog.numErrors_addSource _ _ _
    · rfl
  · split
    · exact .refl e
    · exact (Tells.refl e).graph _

/-- Expanding an instance succeeds if and only if no error is logged. -/
theorem tells_expandInstance {e : Expansion} (hwf : e.graph.WellFormed) (macros : List Graph)
    (keep : Bool) (inst : NodeId) : Tells e (expandInstance macros keep e inst) := by
  unfold expandInstance
  split
  · next data hkind =>
    split
    · exact (Tells.fail e _ _).graph _
    · next source hsource =>
      obtain ⟨g, harrays⟩ := addEmptyArrays_eq hwf inst
      dsimp only
      rw [harrays]
      refine Tells.graph ?_ _
      refine .trans ?_ (.foldl (tells_collapseTunnel inst) _ _)
      refine .trans ?_ (tells_placeCopies _ source inst _ keep)
      exact (((Tells.refl e).graph _).graph _).trans (tells_recordCopies _ _ _ _ _)
  · exact .refl e

theorem tells_abandon (e : Expansion) (inst : NodeId) : Tells e (abandon e inst) :=
  (Tells.fail e _ _).graph _

/-! ## Counterparts -/

theorem sameFaces_collapsePin (tunnel inst : NodeId) (entry : Bool) (e : Expansion) (p : PinId) :
    SameFaces e.graph (collapsePin tunnel inst entry e p).graph := by
  unfold collapsePin
  extract_lets side
  split
  · exact .refl _
  · split
    · exact .refl _
    · split
      · exact .refl _
      · next instPin _ =>
        dsimp only
        split
        · exact sameFaces_rewireThrough e.graph instPin p entry
        · exact sameFaces_rewireThrough e.graph instPin p entry

/-- If the tunnel pin is wired to the body, then it has a counterpart on the instance. -/
def Matched (g : Graph) (inst : NodeId) (entry : Bool) (p : PinId) : Prop :=
  ∀ pin, g.pin? p = some pin → pin.direction = innerSide entry →
    ∃ q, g.findPin? inst pin.name (some (innerSide entry).opposite) = some q

theorem Matched.congr {g g' : Graph} {inst : NodeId} {entry : Bool} {p : PinId}
    (hinst : KeepsNode inst g g') (hface : (g'.pin? p).map Pin.unwired = (g.pin? p).map Pin.unwired)
    (h : Matched g' inst entry p) : Matched g inst entry p := by
  intro pin hpin hside
  rw [hpin, Option.map_some] at hface
  obtain ⟨pin', hpin', hunwired⟩ := Option.map_eq_some_iff.1 hface
  have hname : pin'.name = pin.name := (congrArg Pin.name hunwired :)
  have hdirection : pin'.direction = pin.direction := (congrArg Pin.direction hunwired :)
  obtain ⟨q, hq⟩ := h pin' hpin' (hdirection.trans hside)
  rw [hinst.findPin?, hname] at hq
  exact ⟨q, hq⟩

theorem matched_collapsePins {tunnel inst : NodeId} {entry : Bool} {ps : List PinId} {e : Expansion}
    (hquiet : (ps.foldl (collapsePin tunnel inst entry) e).log.numErrors ≤ e.log.numErrors) :
    ∀ p ∈ ps, Matched e.graph inst entry p := by
  induction ps generalizing e with
  | nil => exact fun p hp ↦ absurd hp List.not_mem_nil
  | cons p ps ih =>
    have hfaces := sameFaces_collapsePin tunnel inst entry e p
    have hfirst := le_numErrors_collapsePin tunnel inst entry e p
    have hlater := le_numErrors_foldl (le_numErrors_collapsePin tunnel inst entry) ps
      (collapsePin tunnel inst entry e p)
    rw [List.foldl_cons] at hquiet
    rintro q (_ | ⟨_, hq⟩)
    · intro pin hpin hside
      rcases collapsePin_cases tunnel inst entry e p with
        ⟨-, hnot⟩ | ⟨pin', instPin, hpin', -, hfind, -⟩ | herror
      · exact absurd hside (hnot pin hpin)
      · cases hpin.symm.trans hpin'
        exact ⟨instPin, hfind⟩
      · omega
    · exact (ih (by omega) q hq).congr (.of_sameFaces inst hfaces) (hfaces.pins q)

theorem keepsNode_collapseTunnel {e : Expansion} (hwf : e.graph.WellFormed) (inst : NodeId)
    {tunnel n : NodeId} (hn : n ≠ tunnel) : KeepsNode n e.graph (collapseTunnel inst e tunnel).graph := by
  unfold collapseTunnel
  split
  · next entry _ =>
    have hfaces : SameFaces e.graph
        ((e.graph.pinsOf tunnel).foldl (collapsePin tunnel inst entry) e).graph :=
      List.foldlRecOn (motive := fun e' : Expansion ↦ SameFaces e.graph e'.graph) _ _ (.refl _)
        fun e' he' p _ ↦ he'.trans (sameFaces_collapsePin tunnel inst entry e' p)
    exact (KeepsNode.of_sameFaces n hfaces).trans
      (.removeNode (hfaces.sameBooks.wellFormed hwf) hn)
  · exact .refl n e.graph

/-- If collapsing the tunnels reports nothing, then each of their pins that is wired to the body has
a counterpart on the instance. -/
theorem matched_collapseTunnels {inst : NodeId} {tunnels : List NodeId} {e : Expansion}
    (hwf : e.graph.WellFormed) (hnodup : tunnels.Nodup) (hinst : inst ∉ tunnels)
    (hquiet : (tunnels.foldl (collapseTunnel inst) e).log.numErrors ≤ e.log.numErrors) :
    ∀ tunnel ∈ tunnels, ∀ entry, e.graph.kind? tunnel = some (.tunnel entry) →
      ∀ p ∈ e.graph.pinsOf tunnel, Matched e.graph inst entry p := by
  induction tunnels generalizing e with
  | nil => exact fun _ htunnel ↦ absurd htunnel List.not_mem_nil
  | cons first rest ih =>
    obtain ⟨hfresh, hnodup⟩ := List.nodup_cons.1 hnodup
    rw [List.mem_cons, not_or] at hinst
    have hfirst := le_numErrors_collapseTunnel inst e first
    have hlater := le_numErrors_foldl (le_numErrors_collapseTunnel inst) rest
      (collapseTunnel inst e first)
    rw [List.foldl_cons] at hquiet
    intro tunnel htunnel entry hkind p hp
    rcases List.mem_cons.1 htunnel with rfl | htunnel
    · have hpins : (collapseTunnel inst e tunnel).log.numErrors ≤ e.log.numErrors := by omega
      rw [collapseTunnel_of_kind hkind] at hpins
      exact matched_collapsePins hpins p hp
    · have hne : tunnel ≠ first := fun heq ↦ hfresh (heq ▸ htunnel)
      have hkeep := keepsNode_collapseTunnel hwf inst hne
      have hwf' := keptAround_wellFormed.collapseTunnel hwf inst first
      refine (ih hwf' hnodup hinst.2 (by omega) tunnel htunnel entry (hkeep.kind?.trans hkind) p
        (hkeep.pinsOf.symm ▸ hp)).congr (keepsNode_collapseTunnel hwf inst hinst.1) (hkeep.faces p hp)

end VisualScript.Expansion
