import VisualScript.Proofs.Compile.Entering
import VisualScript.Proofs.Compile.Reroutes
import VisualScript.Proofs.Terminals.Outputs

/-!
# Objects of calls

A call of a function of another class is made on the object that is wired to its self pin.
The pin is checked before reroutes are collapsed, so the wires to it may begin at a reroute
that has no input, and the call would be made on the object itself.  If they begin at outputs
that are stored, the call has its object wherever its code stands.
-/

namespace VisualScript

namespace Graph

variable {g g' : Graph} {n m : NodeId} {p q x y : PinId}

/-! ## Stored outputs -/

/-- The pin is a data output of a node that stores its outputs. -/
def Stores (g : Graph) (q : PinId) : Prop :=
  ∃ n kind, g.kind? n = some kind ∧ kind.storesOutputs = true ∧ q ∈ g.filteredPins n .output false

theorem Stores.keep (h : g.Stores q) (hkeeps : ∀ n, q ∈ g.pinsOf n → KeepsNode n g g') :
    g'.Stores q := by
  obtain ⟨n, kind, hkind, hstores, hq⟩ := h
  have hn := hkeeps n (mem_filteredPins.1 hq).1
  exact ⟨n, kind, hn.kind?.trans hkind, hstores, hn.filteredPins _ _ ▸ hq⟩

/-- The pin is wired, and to stored outputs only. -/
structure FedFromStores (g : Graph) (p : PinId) : Prop where
  wired : ∃ q, g.Feeds q p
  stores : ∀ q, g.Feeds q p → g.Stores q

/-- The outputs of reroutes are not stored. -/
theorem RerouteAt.not_stores (h : g.RerouteAt n x y) (hwf : g.WellFormed) (hq : q ∈ g.pinsOf n) :
    ¬g.Stores q := by
  rintro ⟨m, kind, hkind, hstores, hq'⟩
  obtain rfl : m = n := hwf.eq_of_mem_pinsOf (mem_filteredPins.1 hq').1 hq
  obtain ⟨ty, hknot⟩ := h.kind?
  cases hkind.symm.trans hknot
  cases hstores

/-! ## Pins that are taken away -/

theorem KeepsNode.removePin (hwf : g.WellFormed) (hp : g.ownerOf? p = some m) (hne : n ≠ m) :
    KeepsNode n g (g.removePin p) := by
  have hmem : p ∉ g.pinsOf n := fun hmem ↦
    hne (Option.some.inj (((hwf.mem_pinsOf n p).1 hmem).symm.trans hp))
  refine ⟨kind?_removePin g p n, ?_, fun q hq ↦ ?_⟩
  · rw [pinsOf_removePin hwf hp, List.filter_eq_self]
    exact fun q hq ↦ decide_eq_true fun heq ↦ hmem (heq ▸ hq)
  · rw [pin?_removePin hp, if_neg fun heq : p = q ↦ hmem (heq ▸ hq)]
    exact (sameFaces_breakPinLinks g p).pins q

/-- The wires are the same, and only unwired pins of the entry may be gone. -/
structure SameWires (entry : NodeId) (g g' : Graph) : Prop where
  feeds : ∀ p q, g'.Feeds p q ↔ g.Feeds p q
  keeps : ∀ n, n ≠ entry → KeepsNode n g g'
  stores : ∀ p q, g.Feeds p q → g.Stores p → g'.Stores p

theorem SameWires.refl (entry : NodeId) (g : Graph) : SameWires entry g g :=
  ⟨fun _ _ ↦ .rfl, fun n _ ↦ .refl n g, fun _ _ _ h ↦ h⟩

theorem FedFromStores.sameWires {entry : NodeId} (h : g.FedFromStores p)
    (hsame : SameWires entry g g') : g'.FedFromStores p := by
  obtain ⟨q, hq⟩ := h.wired
  refine ⟨⟨q, (hsame.feeds q p).2 hq⟩, fun q hq ↦ ?_⟩
  have hfeeds := (hsame.feeds q p).1 hq
  exact hsame.stores q p hfeeds (h.stores q hfeeds)

/-- No wire is lost with a pin that has none. -/
theorem sameWires_removePin (hwf : g.WellFormed) (hlinked : g.Linked)
    (hp : g.ownerOf? p = some n) (hnone : g.linksOf p = []) : SameWires n g (g.removePin p) := by
  have hne {a b : PinId} (hb : b ∈ g.linksOf a) : a ≠ p ∧ b ≠ p := by
    refine ⟨?_, ?_⟩
    · rintro rfl
      simp [hnone] at hb
    · rintro rfl
      simpa [hnone] using hlinked.symm hb
  have hpin {a : PinId} (ha : a ≠ p) : ((g.removePin p).pin? a).map Pin.unwired =
      (g.pin? a).map Pin.unwired := by
    rw [pin?_removePin hp, if_neg ha.symm]
    exact (sameFaces_breakPinLinks g p).pins a
  have hface {β : Type} {f : Pin → β} (hf : ∀ pin, f pin.unwired = f pin) {a : PinId}
      (ha : a ≠ p) : ((g.removePin p).pin? a).map f = (g.pin? a).map f := by
    have hmap := congrArg (Option.map f) (hpin ha)
    rwa [Option.map_map, Option.map_map, show f ∘ Pin.unwired = f from funext hf] at hmap
  refine ⟨fun a b ↦ ?_, fun m hm ↦ .removePin hwf hp hm, fun a b hfeeds ⟨m, kind, hkind, hstores, ha⟩ ↦
    ⟨m, kind, (kind?_removePin g p m).trans hkind, hstores, ?_⟩⟩
  · rw [feeds_iff, feeds_iff, mem_linksOf_removePin hlinked hp]
    constructor
    · rintro ⟨hdirection, hb, ha, -⟩
      exact ⟨(hface (fun _ ↦ rfl) ha).symm.trans hdirection, hb⟩
    · rintro ⟨hdirection, hb⟩
      exact ⟨(hface (fun _ ↦ rfl) (hne hb).1).trans hdirection, hb, hne hb⟩
  · have hkept : a ≠ p := (hne (feeds_iff.1 hfeeds).2).1
    obtain ⟨hmem, pin, hpin, hout, hexec⟩ := mem_filteredPins.1 ha
    have hsides := hface (f := fun pin ↦ (pin.direction, pin.isExec)) (fun _ ↦ rfl) hkept
    rw [hpin, Option.map_some, hout, hexec, Option.map_eq_some_iff] at hsides
    obtain ⟨pin', hpin', hsides⟩ := hsides
    obtain ⟨hout', hexec'⟩ := Prod.mk.inj hsides
    refine mem_filteredPins.2 ⟨?_, pin', hpin', hout', hexec'⟩
    rw [pinsOf_removePin hwf hp, List.mem_filter]
    exact ⟨hmem, decide_eq_true hkept⟩

/-- A world context that nothing uses has no wires. -/
theorem sameWires_dropUnusedWorldContext (env : CompileEnv) (hwf : g.WellFormed)
    (hlinked : g.Linked) (entry : NodeId) :
    SameWires entry g (FunctionState.dropUnusedWorldContext env entry g) := by
  unfold FunctionState.dropUnusedWorldContext
  split
  · exact .refl entry g
  · split
    · next w hw =>
      split
      · next hnone =>
        exact sameWires_removePin hwf hlinked ((hwf.mem_pinsOf entry w).1
          (List.mem_of_find?_eq_some hw)) (List.isEmpty_iff.1 hnone)
      · exact .refl entry g
    · exact .refl entry g

/-! ## Calls of other classes -/

/-- The node calls a function of a class that is no kin of `cls`, on what is wired to the pin. -/
structure ForeignCall (g : Graph) (cls : Class) (n : NodeId) (call : CallData) (p : PinId) :
    Prop where
  kind? : g.kind? n = some (.callFunction call)
  selfPin? : g.selfPin? n = some p
  foreign : ∃ owner, call.owner = some owner ∧ cls.isChildOf owner = false ∧
    cls.implementsInterface owner = false

namespace ForeignCall

variable {cls cls' : Class} {call : CallData}

theorem sameKin (h : g.ForeignCall cls n call p) (hkin : cls.SameKin cls') :
    g.ForeignCall cls' n call p := by
  obtain ⟨owner, howner, hchild, hinterface⟩ := h.foreign
  exact ⟨h.kind?, h.selfPin?, owner, howner, (hkin.isChildOf owner).trans hchild,
    (hkin.implementsInterface owner).trans hinterface⟩

theorem keep (h : g.ForeignCall cls n call p) (hkeeps : KeepsNode n g g') :
    g'.ForeignCall cls n call p :=
  ⟨hkeeps.kind?.trans h.kind?, (hkeeps.findPin? _ _).trans h.selfPin?, h.foreign⟩

theorem mem_order (h : g.ForeignCall cls n call p) (hwf : g.WellFormed) : n ∈ g.order :=
  hwf.mem_order_of_kind? h.kind?

theorem mem_pinsOf (h : g.ForeignCall cls n call p) : p ∈ g.pinsOf n :=
  List.mem_of_find?_eq_some h.selfPin?

theorem directionOf? (h : g.ForeignCall cls n call p) : g.directionOf? p = some .input :=
  (findPin?_eq_some h.selfPin?).2

end ForeignCall

end Graph

/-! ## Checked graphs -/

open VisualScript.Graph

/-- The graph when its calls are checked: the nodes that cannot run are gone. -/
def FunctionContext.checkedGraph (c : FunctionContext) (keepComments : Bool) : Graph :=
  match c.graph.nodesWhere (·.isEntry) with
  | [entry] => (c.graph.pruneIsolated (FunctionState.roots c.graph entry) keepComments).2
  | _ => c.graph

namespace FunctionState

variable {env : CompileEnv} {s : FunctionState} {entry n : NodeId} {call : CallData} {p : PinId}

/-- The self pin of a call that is not reported is wired. -/
theorem exists_feeds_of_quiet (hwf : s.graph.WellFormed) (hlinked : s.graph.Linked)
    (hlog : (s.log.pushAll (s.graph.order.filterMap s.selfFault?)).numErrors ≤ s.log.numErrors)
    (hcall : s.graph.ForeignCall s.cls n call p) : ∃ q, s.graph.Feeds q p := by
  obtain ⟨owner, howner, hchild, hinterface⟩ := hcall.foreign
  cases hlinks : s.graph.linksOf p with
  | cons q rest =>
    exact ⟨q, (hlinked.mem_linksOf_input hcall.directionOf?).1 (hlinks ▸ List.mem_cons_self)⟩
  | nil =>
    have hfault : ∃ m, s.selfFault? n = some m ∧ m.severity = .error := by
      simp [selfFault?, hcall.kind?, howner, hchild, hinterface, hcall.selfPin?, hlinks,
        Message.error]
    obtain ⟨m, hm, herror⟩ := hfault
    exact absurd herror (MessageLog.severity_ne_error_of_pushAll hlog m
      (List.mem_filterMap.2 ⟨n, hcall.mem_order hwf, hm⟩))

/-- Once reroutes are gone, only stored outputs are wired to the self pin of a call, if the wires
began at such. -/
theorem fedFromStores_transformNodes (henv : env.HandlesAll) (hwf : s.graph.WellFormed)
    (hlinked : s.graph.Linked) (hlog : (s.transformNodes env).log.numErrors ≤ s.log.numErrors)
    {cls : Class} (hcall : s.graph.ForeignCall cls n call p)
    (hsupplied : Supplied s.graph.Stores s.graph p) :
    KeepsNode n s.graph (s.transformNodes env).graph ∧
      (s.transformNodes env).graph.FedFromStores p := by
  have hcollapsed := collapsed_transformNodes henv hwf hlinked hlog
  -- a call is no reroute, so that it stays
  have hn : n ∈ (s.transformNodes env).graph.order := by
    have hself : Trims s.graph [n] s.graph := ⟨hwf, hlinked, .refl _, fun _ _ ↦ rfl,
      List.cons_subset.2 ⟨hcall.mem_order hwf, List.nil_subset _⟩⟩
    refine (hself.transformNodes env ?_).roots List.mem_cons_self
    refine List.forall_mem_singleton.2 fun ty hknot ↦ ?_
    cases hcall.kind?.symm.trans hknot
  have hkeeps := hcollapsed.keeps n hn
  obtain ⟨hwired, hstores⟩ := feeds_transformNodes henv hwf hlinked hlog
    (fun m x y hm q hq ↦ hm.not_stores hwf hq) hn (hkeeps.pinsOf ▸ hcall.mem_pinsOf) hsupplied
  refine ⟨hkeeps, hwired, fun q hq ↦ (hstores q hq).keep fun m hm ↦ ?_⟩
  -- the node of an output that is wired stays as well
  obtain ⟨pin, hpin, -⟩ := hq
  have howner := ownerOf?_of_pin? hpin
  have hmem := (hcollapsed.wellFormed.mem_pinsOf pin.owner q).2 howner
  have hkept := hcollapsed.keeps pin.owner (hcollapsed.wellFormed.mem_order_of_mem_pinsOf hmem)
  obtain rfl : m = pin.owner := hwf.eq_of_mem_pinsOf hm (hkept.pinsOf ▸ hmem)
  exact hkept

/-- In the simplified graph only stored outputs are wired to the self pin of a call, if the wires
began at such when the calls were checked. -/
theorem fedFromStores_simplifyGraph (henv : env.HandlesAll) (hwf : s.graph.WellFormed)
    (hentry : s.findEntry = .ok entry)
    (hlog : (s.simplifyGraph env entry).log.numErrors ≤ s.log.numErrors)
    {g : Graph} (hg : g = s.ctx.checkedGraph env.options.saveIntermediateProducts)
    (hcall : g.ForeignCall s.cls n call p) (hbegins : ∀ q, g.BeginsAt p q → g.Stores q) :
    KeepsNode n g (s.simplifyGraph env entry).graph ∧
      (s.simplifyGraph env entry).graph.FedFromStores p := by
  let pruned : FunctionState := { s with
    ctx.entryPoint := some entry
    ctx.graph := (s.graph.pruneIsolated (roots s.graph entry)
      env.options.saveIntermediateProducts).2
    log := s.graph.validate env.schema s.log }
  let told : FunctionState := { pruned with
    log := pruned.log.pushAll (pruned.graph.order.filterMap pruned.selfFault?) }
  have hsimplify : (s.simplifyGraph env entry).graph =
      dropUnusedWorldContext env entry (told.transformNodes env).graph := rfl
  have hvalidated : s.log.numErrors ≤ pruned.log.numErrors := MessageLog.le_numErrors_pushAll _
  have htold : pruned.log.numErrors ≤ told.log.numErrors := MessageLog.le_numErrors_pushAll _
  have htransformed := (editsGraph_transformNodes env told).numErrors_le
  have hlast : (told.transformNodes env).log.numErrors ≤ s.log.numErrors := hlog
  -- the graph is linked when the calls are checked
  have hlinked : s.graph.Linked :=
    hwf.linked (Nat.le_trans htold (Nat.le_trans htransformed hlast))
  have htrims : Trims s.graph (roots s.graph entry) pruned.graph :=
    Trims.pruneIsolated ⟨hwf, hlinked, .refl _, fun _ _ ↦ rfl,
      fun n hn ↦ (mem_roots hwf hentry hn).1⟩ env.options.saveIntermediateProducts
  obtain rfl : g = pruned.graph := by
    rw [hg, FunctionContext.checkedGraph,
      show s.ctx.graph.nodesWhere (·.isEntry) = [entry] from findEntry_eq_ok hentry]
  have hwired := exists_feeds_of_quiet htrims.wellFormed htrims.linked
    (Nat.le_trans htransformed (Nat.le_trans hlast hvalidated)) hcall
  obtain ⟨hkeeps, hfed⟩ := fedFromStores_transformNodes (s := told) henv htrims.wellFormed
    htrims.linked (Nat.le_trans hlast (Nat.le_trans hvalidated htold)) hcall ⟨hwired, hbegins⟩
  -- the world context is no concern of the call
  have hne : n ≠ entry := by
    rintro rfl
    have hmem : n ∈ s.graph.nodesWhere (·.isEntry) := by
      rw [findEntry_eq_ok hentry]
      exact List.mem_singleton_self n
    have hkind : s.graph.kind? n = some (.callFunction call) :=
      (htrims.kind? n (hcall.mem_order htrims.wellFormed)).symm.trans hcall.kind?
    rw [hwf.nodesWhere_eq, List.mem_filter, kindIs, hkind] at hmem
    cases hmem.2
  have htrims' : Trims s.graph (roots s.graph entry) (told.transformNodes env).graph :=
    Trims.transformNodes (s := told) htrims env fun n hn ↦ (mem_roots hwf hentry hn).2
  have hsame := sameWires_dropUnusedWorldContext env htrims'.wellFormed htrims'.linked entry
  rw [hsimplify]
  exact ⟨hkeeps.trans (hsame.keeps n hne), hfed.sameWires hsame⟩

end FunctionState

/-! ## The object of a call -/

namespace FunctionContext

variable {env : CompileEnv} {c d : FunctionContext} {n m : NodeId} {call : CallData} {p q : PinId}

theorem inputTerm?_eq (c : FunctionContext) (p : PinId) : c.inputTerm? p =
    if (c.graph.pin? p).isSome then c.net? ((c.graph.linksOf p).head?.getD p) else none := by
  unfold inputTerm? Graph.linksOf
  cases c.graph.pin? p <;> rfl

/-- A call whose self pin is wired to pins with storage has an object. -/
theorem exists_callTarget? (hself : c.graph.selfPin? n = some p) (hwired : c.graph.linksOf p ≠ [])
    (hnets : ∀ q ∈ c.graph.linksOf p, (c.net? q).isSome = true) : ∃ t, c.callTarget? n = some t := by
  obtain ⟨q, rest, hlinks⟩ := List.exists_cons_of_ne_nil hwired
  obtain ⟨t, ht⟩ := Option.isSome_iff_exists.1 (hnets q (hlinks ▸ List.mem_cons_self))
  have hpin : (c.graph.pin? p).isSome = true := by
    obtain ⟨pin, hpin, -⟩ := Graph.mem_linksOf.1 (hlinks ▸ List.mem_cons_self : q ∈ c.graph.linksOf p)
    rw [hpin]
    rfl
  refine ⟨t, ?_⟩
  rw [callTarget?, hself, Option.bind_some, inputTerm?_eq, if_pos hpin, hlinks]
  exact ht

end FunctionContext

theorem FunctionState.wellFormed_precompile {env : CompileEnv} {s : FunctionState}
    (hwf : s.graph.WellFormed) (hlog : (s.precompile env).log.numErrors ≤ s.log.numErrors) :
    (s.precompile env).ctx.graph.WellFormed ∧ (s.precompile env).ctx.graph.Linked := by
  obtain ⟨entry, hentry, -, hgraph, hquiet⟩ := graph_precompile hlog
  have htrims := trims_simplifyGraph env hwf hentry hquiet
  rw [hgraph]
  exact ⟨htrims.wellFormed, htrims.linked⟩

/-- In a prepared function a call has its object. -/
theorem FunctionState.exists_callTarget?_precompile {env : CompileEnv} {s : FunctionState}
    {cls : Class} (henv : env.HandlesAll) (hwf : s.graph.WellFormed)
    (hlog : (s.precompile env).log.numErrors ≤ s.log.numErrors)
    (hprepared : (s.precompile env).ctx.Prepared cls) {g : Graph}
    (hg : g = s.ctx.checkedGraph env.options.saveIntermediateProducts) {n : NodeId} {call : CallData}
    {p : PinId} (hcall : g.ForeignCall s.cls n call p) (hbegins : ∀ q, g.BeginsAt p q → g.Stores q) :
    (s.precompile env).ctx.graph.kind? n = some (.callFunction call) ∧
      ∃ t, (s.precompile env).ctx.callTarget? n = some t := by
  obtain ⟨entry, hentry, -, hgraph, hquiet⟩ := graph_precompile hlog
  obtain ⟨hkeeps, hfed⟩ := fedFromStores_simplifyGraph henv hwf hentry hquiet hg hcall hbegins
  obtain ⟨hwf', hlinked⟩ := wellFormed_precompile hwf hlog
  rw [← hgraph] at hkeeps hfed
  have hkept := hcall.keep hkeeps
  have hlinks (q : PinId) := hlinked.mem_linksOf_input (q := q) hkept.directionOf?
  obtain ⟨q, hq⟩ := hfed.wired
  refine ⟨hkept.kind?, FunctionContext.exists_callTarget? hkept.selfPin?
    (List.ne_nil_of_mem ((hlinks q).2 hq)) fun r hr ↦ ?_⟩
  obtain ⟨m, kind, hkind, hstores, hmem⟩ := hfed.stores r ((hlinks r).1 hr)
  have hlist := hprepared.mem_executionList.2 (hwf'.mem_order_of_kind? hkind)
  exact isSome_net?_precompile hlog hlist hkind
    ((henv kind).trans (NodeKind.hasHandler_of_storesOutputs hstores)) hstores hmem

/-! ## Where the code of a call stands -/

namespace FunctionContext

variable {env : CompileEnv} {c d : FunctionContext} {n m : NodeId} {call : CallData} {p q : PinId}

/-- The code of the node, which begins at its label, has the operation. -/
def StandsAt (c : FunctionContext) (script : Script) (m : NodeId) (op : ScriptOp) : Prop :=
  ∃ before block rest, script = before ++ (block ++ rest) ∧
    c.nodeLabels.lookup m = some before.length ∧ block.length = (c.statementsOf m).length ∧ op ∈ block

/-- The operations of a node are in its own code, and in that of the impure nodes that read it. -/
theorem CompiledFrom.mem_statementsOf {cls : Class} (h : c.CompiledFrom env d)
    (hprepared : c.Prepared cls) (hwf : c.graph.WellFormed) (hlinked : c.graph.Linked)
    (hstub : c.flags.interfaceStub = false) {kind : NodeKind} (hkind : c.graph.kind? n = some kind)
    {op : Statement} (hop : op ∈ c.operationsOf n kind) (hm : m ∈ d.executionList)
    (hreads : m = n ∨ c.graph.ExecJoinsImpure ∧ n ∈ c.graph.sources m) : op ∈ d.statementsOf m := by
  cases h with
  | stub h =>
    rw [hstub] at h
    cases h
  | code table _ hcode _ =>
    have hn := hprepared.mem_executionList.2 (hwf.mem_order_of_kind? hkind)
    have hone : (c.withCode table).statementsOf n = c.codeOfNode n env := statementsOf_of_count
      (Inline.nodup_executionList hprepared.scheduled hwf.nodup_order) hcode hn
    have hmem : op ∈ (c.withCode table).statementsOf n := by
      rw [hone, codeOfNode, hkind]
      exact List.mem_append_right _ (List.mem_append_left _ hop)
    rcases hreads with rfl | ⟨hexec, hsource⟩
    · exact (suffix_inlinePureNodes (c.withCode table) m).subset hmem
    · obtain ⟨hlist, hinline⟩ := inlinePureNodes_spec (c := c.withCode table)
        hprepared.scheduled (Graph.readsPaired hwf hlinked hexec) hwf.nodup_order
      rw [hlist, List.mem_filter, Bool.not_eq_true'] at hm
      obtain ⟨needed, -, -, hcomplete, hstatements⟩ := hinline m hm.1 hm.2
      have hoperation := c.isOperation_of_mem_operationsOf n hop
      have hgenerated : (c.withCode table).generatedCode n = true := by
        refine List.any_eq_true.2 ⟨op, hmem, ?_⟩
        cases op <;> first | rfl | cases hoperation
      rw [hstatements]
      exact List.mem_append_left _ (List.mem_flatMap.2 ⟨n, hcomplete n hsource hgenerated, hmem⟩)

theorem FinishedFrom.mem_executionList (h : c.FinishedFrom d) :
    n ∈ d.executionList ↔ n ∈ c.executionList := by
  cases h with
  | stub => rfl
  | code flags _ =>
    obtain ⟨table, code, labels, heq⟩ := c.sortForFallThrough.resolveJumps_eq
    rw [heq]
    exact mem_sortForFallThrough

namespace Lineage

variable {cls : Class} {s : FunctionState} {c₂ c₃ : FunctionContext}
  (h : Lineage env cls d s c₂ c₃)
include h

theorem callTarget? (n : NodeId) : c₃.callTarget? n = (s.precompile env).ctx.callTarget? n := by
  obtain ⟨table, list, code, labels, flags, rfl⟩ := h.frame
  rfl

theorem callStatement (n : NodeId) (call : CallData) :
    c₃.callStatement n call = (s.precompile env).ctx.callStatement n call := by
  obtain ⟨table, list, code, labels, flags, rfl⟩ := h.frame
  rfl

variable (hwf : (s.precompile env).ctx.graph.WellFormed) (hstub : d.flags.interfaceStub = false)
  {kind : NodeKind} (hkind : (s.precompile env).ctx.graph.kind? n = some kind)
include hwf hstub hkind

theorem mem_executionList (himpure : kind.isPure = false) : n ∈ c₃.executionList :=
  h.finished.mem_executionList.2
    (h.compiled.code_of_impure h.prepared hwf (h.interfaceStub hstub).1 hkind himpure).1

/-- The operations of a node stand where the code of the node begins, and where that of the impure
nodes that read it does. -/
theorem exists_block (hlinked : (s.precompile env).ctx.graph.Linked) {op : Statement}
    (hop : op ∈ (s.precompile env).ctx.operationsOf n kind) (hm : m ∈ c₃.executionList)
    (hreads : m = n ∨ c₃.graph.ExecJoinsImpure ∧ n ∈ c₃.graph.sources m) :
    ∃ before rest, c₃.statements = before ++ (c₃.block m ++ rest) ∧
      c₃.nodeLabels.lookup m = some before.length ∧ op ∈ c₃.block m := by
  obtain ⟨hprepared, hcompiled⟩ := h.interfaceStub hstub
  have hlist := h.finished.mem_executionList.1 hm
  rw [h.graph] at hreads
  have hmem := h.compiled.mem_statementsOf h.prepared hwf hlinked hprepared hkind hop hlist hreads
  obtain ⟨before, rest, hstatements, hlabel, -, hkept, -⟩ := h.finished.exists_block hcompiled hlist
  have hstraight := Statement.isStraight_of_isOperation
    ((s.precompile env).ctx.isOperation_of_mem_operationsOf n hop)
  exact ⟨before, rest, hstatements, hlabel, hkept op hmem hstraight⟩

end Lineage

/-- The functions differ in defaults of pins and in terminals only. -/
structure SameCode (c d : FunctionContext) : Prop where
  frame : ∃ g terms, d = { c with graph := g, terms }
  faces : SameFaces c.graph d.graph
  linksOf : ∀ p, d.graph.linksOf p = c.graph.linksOf p

namespace SameCode

theorem refl (c : FunctionContext) : SameCode c c := ⟨⟨_, _, rfl⟩, .refl _, fun _ ↦ rfl⟩

variable (h : SameCode c d)
include h

theorem net? (p : PinId) : d.net? p = c.net? p := by
  obtain ⟨g, terms, rfl⟩ := h.frame
  rfl

theorem inputTerm? : d.inputTerm? = c.inputTerm? := by
  funext p
  have hsome := congrArg Option.isSome (h.faces.pins p)
  rw [Option.isSome_map, Option.isSome_map] at hsome
  rw [inputTerm?_eq, inputTerm?_eq, hsome, h.linksOf, h.net?]

/-- The code is the same. -/
theorem code : d.executionList = c.executionList ∧ d.statements = c.statements ∧
    d.nodeLabels = c.nodeLabels ∧ d.statementsOf = c.statementsOf := by
  obtain ⟨g, terms, rfl⟩ := h.frame
  exact ⟨rfl, rfl, rfl, rfl⟩

theorem callTarget? (n : NodeId) : d.callTarget? n = c.callTarget? n := by
  have hself : d.graph.selfPin? n = c.graph.selfPin? n := (KeepsNode.of_sameFaces n h.faces).findPin? _ _
  unfold FunctionContext.callTarget?
  rw [hself, h.inputTerm?]
  simp only [h.linksOf]

theorem callStatement (n : NodeId) (call : CallData) :
    d.callStatement n call = c.callStatement n call := by
  have hpins (direction : Direction) : d.graph.filteredPins n direction false =
      c.graph.filteredPins n direction false := (KeepsNode.of_sameFaces n h.faces).filteredPins _ _
  have hinputs : CallFunction.inputs d.graph n = CallFunction.inputs c.graph n := by
    unfold CallFunction.inputs
    rw [hpins]
    exact List.filter_congr fun p _ ↦ h.faces.any_eq (fun _ ↦ rfl) p
  have hreturn : CallFunction.isReturn d.graph = CallFunction.isReturn c.graph :=
    funext fun p ↦ h.faces.any_eq (fun _ ↦ rfl) p
  unfold FunctionContext.callStatement
  rw [h.callTarget?, hinputs, h.inputTerm?, hpins, hreturn, show d.net? = c.net? from funext h.net?]

/-- What reads from what is up to the wires. -/
theorem sources (n : NodeId) : d.graph.sources n = c.graph.sources n := by
  have hpure : d.graph.isPure = c.graph.isPure := funext fun m ↦ by
    rw [Graph.isPure, h.faces.nodes, Graph.isPure]
  have hnodes : d.graph.linkedNodes = c.graph.linkedNodes := funext fun p ↦ by
    rw [Graph.linkedNodes, h.linksOf, show d.graph.ownerOf? = c.graph.ownerOf? from
      funext h.faces.ownerOf?_eq, Graph.linkedNodes]
  have hreads : d.graph.dataDependencies = c.graph.dataDependencies := funext fun m ↦ by
    rw [Graph.dataDependencies, (KeepsNode.of_sameFaces m h.faces).filteredPins, hnodes,
      Graph.dataDependencies]
  rw [Graph.sources, h.faces.order, hpure, hreads, Graph.sources]

theorem execJoinsImpure (hexec : d.graph.ExecJoinsImpure) : c.graph.ExecJoinsImpure := by
  intro p q pin pin' hpin hlink hpin'
  have hside {p : PinId} {pin : Pin} (hpin : c.graph.pin? p = some pin) :
      ∃ pin', d.graph.pin? p = some pin' ∧ pin'.owner = pin.owner ∧ pin'.isExec = pin.isExec := by
    have hmap := h.faces.map_eq (f := fun pin ↦ (pin.owner, pin.isExec)) (fun _ ↦ rfl) p
    rw [hpin, Option.map_some, Option.map_eq_some_iff] at hmap
    obtain ⟨pin', hpin', heq⟩ := hmap
    exact ⟨pin', hpin', Prod.mk.inj heq⟩
  have hpure (m : NodeId) : d.graph.isPure m = c.graph.isPure m := by
    rw [Graph.isPure, h.faces.nodes, Graph.isPure]
  obtain ⟨a, ha, howner, hdata⟩ := hside hpin
  obtain ⟨b, hb, howner', hdata'⟩ := hside hpin'
  have hmem : q ∈ d.graph.linksOf p := h.linksOf p ▸ mem_linksOf.2 ⟨pin, hpin, hlink⟩
  obtain ⟨_, ha', hlink'⟩ := mem_linksOf.1 hmem
  cases ha.symm.trans ha'
  rw [← hdata, ← hdata', ← howner, ← howner', ← hpure, ← hpure]
  exact hexec p q a b ha hlink' hb

end SameCode

theorem sameCode_enterAt (c : FunctionContext) (call : NodeId) (index : Nat) :
    c.SameCode (Compilation.enterAt c call index) := by
  unfold Compilation.enterAt
  split
  · exact .refl c
  · next p hp =>
    have hfaces : SameFaces c.graph
        (c.graph.modifyPin p fun pin ↦ { pin with defaultValue := toString index }) :=
      .modifyPin _ p fun _ ↦ rfl
    have hlinks (q : PinId) : (c.graph.modifyPin p fun pin ↦
        { pin with defaultValue := toString index }).linksOf q = c.graph.linksOf q := by
      rw [Graph.linksOf, Graph.pin?_modifyPin, Graph.linksOf]
      split
      · cases c.graph.pin? q <;> rfl
      · rfl
    dsimp only
    split <;> exact ⟨⟨_, _, rfl⟩, hfaces, hlinks⟩

theorem sameCode_patchStub (c : FunctionContext) (labels : List (NodeId × Nat)) :
    c.SameCode (Compilation.patchStub labels c) := by
  unfold Compilation.patchStub
  split
  · exact .refl c
  · split
    · exact .refl c
    · exact c.sameCode_enterAt _ _

end FunctionContext

/-! ## The whole compile -/

namespace Blueprint

open FunctionContext

variable {b : Blueprint} {options : CompileOptions} {suffix : Bool}

/-- All graphs are well-formed when they are listed. -/
theorem wellFormed_listed (hwf : b.WellFormed) {d : FunctionContext}
    (hd : d ∈ ((b.shaped suffix).addFunctions (b.environment options)).contexts) :
    d.graph.WellFormed := by
  cases hgraph : d.isEventGraph with
  | false => exact b.formed_of_mem_addFunctions hwf options suffix hd hgraph
  | true =>
    obtain ⟨hpages, hmacros⟩ := wellFormed_shaped hwf suffix
    obtain rfl := Compilation.eq_eventContext_of_isEventGraph (contexts_shaped b suffix) hd hgraph
    rw [(Compilation.eventGraphOf_eventContext _ _).graph]
    exact (Compilation.headed_eventGraph hpages hmacros (b.environment options)).1

/-- A call of another class is made on an object wherever its code stands, if the wires to its self
pin begin at stored outputs when the calls are checked. -/
theorem target_of_compile (hwf : b.WellFormed) (hfull : options.compileType = .full)
    (hlog : (b.compile options suffix).log.numErrors = 0) {d : FunctionContext}
    (hd : d ∈ ((b.shaped suffix).addFunctions (b.environment options)).contexts) {g : Graph}
    (hg : g = d.checkedGraph options.saveIntermediateProducts) {n : NodeId} {call : CallData}
    {p : PinId} (hcall : g.ForeignCall (b.compile options suffix).cls n call p)
    (hbegins : ∀ q, g.BeginsAt p q → g.Stores q) :
    ∃ c ∈ (b.compile options suffix).contexts, ∃ f t, c.functionName = d.functionName ∧
      (b.compile options suffix).cls.findOwnFunction? d.functionName = some f ∧
      c.callTarget? n = some t ∧ (d.flags.interfaceStub = false →
        (call.isPure = false → n ∈ c.executionList) ∧
        ∀ m ∈ c.executionList, m = n ∨ c.graph.ExecJoinsImpure ∧ n ∈ c.graph.sources m →
          c.StandsAt f.script m (c.lower (c.statements.length - 1) (c.callStatement n call))) := by
  obtain ⟨s, c₂, c₃, hc₃, -, hlineage⟩ := exists_lineage hfull hlog hd
  have henv : (b.environment options).HandlesAll := handlesAll_environment
  have hgraph := wellFormed_listed hwf hd
  have hkin := hlineage.kin.trans (b.develops_passed suffix hfull).toSameKin
  obtain ⟨f, hf, hscript, -⟩ := exists_function_of_lineage hfull hlog hc₃ hlineage
  obtain rfl := hlineage.listed
  obtain ⟨hkind, t, ht⟩ := FunctionState.exists_callTarget?_precompile henv hgraph hlineage.quiet
    hlineage.prepared hg (hcall.sameKin hkin.symm) hbegins
  have hsame := c₃.sameCode_patchStub (b.passed options suffix).eventLabels
  obtain ⟨hstatements, -⟩ :=
    Compilation.statements_patchStub c₃ (b.passed options suffix).eventLabels
  have hpatched : Compilation.patchStub (b.passed options suffix).eventLabels c₃ ∈
      (b.compile options suffix).contexts := by
    rw [contexts_compile hfull]
    exact List.mem_map_of_mem hc₃
  refine ⟨_, hpatched, f, t, ?_, hf, ?_, fun hstub ↦ ?_⟩
  · exact (c₃.sameHeader_patchStub _).functionName.trans hlineage.header.functionName
  · rw [hsame.callTarget?, hlineage.callTarget?, ht]
  generalize Compilation.patchStub (b.passed options suffix).eventLabels c₃ = c at *
  obtain ⟨hlist, -, hlabels, hstatementsOf⟩ := hsame.code
  obtain ⟨hwf', hlinked⟩ := FunctionState.wellFormed_precompile hgraph hlineage.quiet
  rw [hlist, hstatements]
  refine ⟨fun himpure ↦ hlineage.mem_executionList hwf' hstub hkind himpure, fun m hm hreads ↦ ?_⟩
  obtain ⟨before, rest, hcode, hlabel, hop⟩ := hlineage.exists_block hwf' hstub hkind hlinked
    List.mem_cons_self hm (hreads.imp_right fun ⟨hexec, hsource⟩ ↦
      ⟨hsame.execJoinsImpure hexec, hsame.sources m ▸ hsource⟩)
  refine ⟨before.map (c.lower (c₃.statements.length - 1)),
    (c₃.block m).map (c.lower (c₃.statements.length - 1)),
    rest.map (c.lower (c₃.statements.length - 1)), ?_, ?_, ?_, ?_⟩
  · rw [hscript, ← List.map_append, ← List.map_append, ← hcode]
  · rw [hlabels, List.length_map, hlabel]
  · rw [List.length_map, block, List.length_map, hstatementsOf]
  · rw [hsame.callStatement, hlineage.callStatement]
    exact List.mem_map_of_mem hop

/-! ### Doors -/

/-- A visit opens a door, which comes to the call through a reroute, or should. -/
def visitGraph (arrives : Bool) : Graph :=
  let door : PinType := .object "Door"
  let (entry, g) := (Graph.empty "Visit").spawn (.functionEntry {})
  let (_, g) := g.allocPin entry .output { name := "Front", ty := door }
  let (call, g) := g.spawn (.callFunction (.external "Open" "Door" false))
  let (reroute, g) := g.spawn (.knot door)
  let g := g.wired entry PinName.thenOut call PinName.execute
  let g := g.wired reroute PinName.knotOutput call PinName.self
  if arrives then g.wired entry "Front" reroute PinName.knotInput else g

def house (arrives : Bool) : Blueprint :=
  { Blueprint.new "House" (Class.new "Actor" none) with functionGraphs := [visitGraph arrives] }

/-- The door is what comes to the entry. -/
theorem stores_of_beginsAt_visitGraph {q : PinId} (h : (visitGraph true).BeginsAt ⟨4⟩ q) :
    (visitGraph true).Stores q := by
  have hlinked : (visitGraph true).Linked := by decide +kernel
  have hself : (visitGraph true).directionOf? ⟨4⟩ = some .input ∧ (visitGraph true).linksOf ⟨4⟩ = [⟨6⟩] := by
    decide +kernel
  have hinput : (visitGraph true).directionOf? ⟨5⟩ = some .input ∧ (visitGraph true).linksOf ⟨5⟩ = [⟨1⟩] := by
    decide +kernel
  have hreroute : (visitGraph true).RerouteAt ⟨2⟩ ⟨5⟩ ⟨6⟩ :=
    ⟨⟨.object "Door", by decide +kernel⟩, by decide +kernel, by decide +kernel⟩
  have hfeeds {a b s : PinId} (hb : (visitGraph true).directionOf? b = some .input ∧
      (visitGraph true).linksOf b = [a]) (hs : (visitGraph true).Feeds s b) : s = a := by
    have hmem := (hlinked.mem_linksOf_input hb.1).2 hs
    rwa [hb.2, List.mem_singleton] at hmem
  have hdoor : (visitGraph true).Feeds ⟨1⟩ ⟨5⟩ :=
    (hlinked.mem_linksOf_input hinput.1).1 (by rw [hinput.2]; exact List.mem_cons_self)
  obtain rfl : q = ⟨1⟩ := by
    obtain ⟨hpath, hfirst⟩ := h
    cases hpath with
    | wire hwire =>
      obtain rfl := hfeeds hself hwire
      exact absurd hdoor (hfirst _ _ ⟨_, hreroute⟩)
    | through hwire hjoint _ =>
      obtain ⟨n, hn⟩ := hjoint
      obtain rfl : n = ⟨2⟩ := by
        obtain ⟨ty, hkind⟩ := hn.kind?
        have hwf : (visitGraph true).WellFormed := by decide +kernel
        have hnodes : ∀ n ∈ (visitGraph true).order,
            (visitGraph true).kindIs n (·.tag = .knot) = true → n = ⟨2⟩ := by decide +kernel
        exact hnodes n (hwf.mem_order_of_kind? hkind) (by rw [Graph.kindIs, hkind]; rfl)
      cases hn.input.symm.trans hreroute.input
      exact hfeeds hinput hwire
  exact ⟨⟨0⟩, .functionEntry {}, by decide +kernel, rfl, by decide +kernel⟩

theorem target_of_compile_arriving :
    let b := house true
    let c := b.compile .full true
    b.WellFormed ∧ c.log.numErrors = 0 ∧
      ∃ d ∈ ((b.shaped true).addFunctions (b.environment .full)).contexts, ∃ n call p,
        (d.checkedGraph false).ForeignCall c.cls n call p ∧
        (∀ q, (d.checkedGraph false).BeginsAt p q → (d.checkedGraph false).Stores q) ∧
        ∃ e ∈ c.contexts, ∃ f t, e.functionName = d.functionName ∧
          c.cls.findOwnFunction? d.functionName = some f ∧ e.callTarget? n = some t ∧
          n ∈ e.executionList ∧
            e.StandsAt f.script n (e.lower (e.statements.length - 1) (e.callStatement n call)) := by
  dsimp only
  have hgraphs : ∀ g ∈ (house true).allGraphs, g.WellFormed := by decide +kernel
  have hlog : ((house true).compile .full true).log.numErrors = 0 := by decide +kernel
  obtain ⟨d, hd, hstub, hgraph⟩ : ∃ d ∈ (((house true).shaped true).addFunctions
      ((house true).environment .full)).contexts,
      d.flags.interfaceStub = false ∧ visitGraph true = d.checkedGraph false := by decide +kernel
  have hcall : (visitGraph true).ForeignCall ((house true).compile .full true).cls ⟨1⟩
      (.external "Open" "Door" false) ⟨4⟩ :=
    ⟨by decide +kernel, by decide +kernel, "Door", rfl, by decide +kernel, by decide +kernel⟩
  obtain ⟨e, he, f, t, hname, hf, ht, hcode⟩ := target_of_compile hgraphs rfl hlog hd hgraph hcall
    fun q ↦ stores_of_beginsAt_visitGraph
  obtain ⟨hlist, hstands⟩ := hcode hstub
  refine ⟨hgraphs, hlog, d, hd, ⟨1⟩, _, ⟨4⟩, hgraph ▸ hcall,
    hgraph ▸ fun q ↦ stores_of_beginsAt_visitGraph, e, he, f, t, hname, hf, ht, hlist rfl,
    hstands _ (hlist rfl) (.inl rfl)⟩

theorem not_target_of_compile : ¬∀ (b : Blueprint) (options : CompileOptions) (suffix : Bool),
    b.WellFormed → options.compileType = .full → (b.compile options suffix).log.numErrors = 0 →
      ∀ c ∈ (b.compile options suffix).contexts, ∀ n call p,
        c.graph.ForeignCall (b.compile options suffix).cls n call p →
          ∀ f, (b.compile options suffix).cls.findOwnFunction? c.functionName = some f →
            ∃ t args result, .callFunction call.function (some t) args result ∈ f.script := by
  intro h
  have hgraphs : ∀ g ∈ (house false).allGraphs, g.WellFormed := by decide +kernel
  have hlog : ((house false).compile .full true).log.numErrors = 0 := by decide +kernel
  obtain ⟨c, hc, hname, hkind, hself⟩ : ∃ c ∈ ((house false).compile .full true).contexts,
      c.functionName = "Visit" ∧
        c.graph.kind? ⟨1⟩ = some (.callFunction (.external "Open" "Door" false)) ∧
          c.graph.selfPin? ⟨1⟩ = some ⟨4⟩ := by decide +kernel
  have hsilent : (((house false).compile .full true).cls.findOwnFunction? "Visit").any (fun f ↦
      f.script.all fun | .callFunction _ target _ _ => target.isNone | _ => true) = true := by
    decide +kernel
  obtain ⟨f, hf, hscript⟩ := (Option.any_eq_true _ _).1 hsilent
  obtain ⟨t, args, result, hcall⟩ := h (house false) .full true hgraphs rfl hlog c hc ⟨1⟩ _ ⟨4⟩
    ⟨hkind, hself, "Door", rfl, by decide +kernel, by decide +kernel⟩ f (hname ▸ hf)
  cases List.all_eq_true.1 hscript _ hcall

end Blueprint

end VisualScript
