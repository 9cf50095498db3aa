import VisualScript.Proofs.Macros.Wildcards

/-!
# Where copies come from

Every node that is copied out of a macro is entered in the tables of the log, under its own name
and that of the instance that it is made for.  The instance may itself be a copy that is gone by
then, so its own entry leads on.  Names are never given twice, so no later turn writes over an
entry, and each leads to an earlier node: a chain ends at an instance that the author placed.
-/

namespace VisualScript

namespace Expansion

open VisualScript.Graph Relation

/-! ## Copies of a run -/

/-- In one of the turns the node is copied for the instance. -/
def Makes (macros : List Graph) (run : List (Expansion × NodeId)) (inst n : NodeId) : Prop :=
  ∃ e kind data source old, (e, inst) ∈ run ∧ CopiedIn macros e inst n kind data source old

/-- An instance of the host whose expansion brings the node in, by itself or by that of instances
that it brings in. -/
structure Brings (host : Graph) (macros : List Graph) (run : List (Expansion × NodeId))
    (root n : NodeId) : Prop where
  instance? : ∃ data, host.kind? root = some (.macroInstance data)
  makes : TransGen (Makes macros run) root n

/-- After these turns the tables say where each copy comes from, and what is left of the instances
was in the host or is a copy. -/
structure Entries (host : Graph) (macros : List Graph) (run : List (Expansion × NodeId))
    (e : Expansion) : Prop where
  wellFormed : e.graph.WellFormed
  widens : Graph.Widens host e.graph
  authored : ∀ n : NodeId, n.index < host.nodes.size → e.log.sources.lookup (host.nodeRef n) = none
  copied : ∀ t ∈ run, ∀ n kind data source old, CopiedIn macros t.1 t.2 n kind data source old →
    (t.2.index < n.index ∧ n.index < e.graph.nodes.size) ∧
      Entered host.name source t.2 old n e.log
  instances : ∀ n data, e.graph.kind? n = some (.macroInstance data) →
    (∃ data, host.kind? n = some (.macroInstance data)) ∨ ∃ inst, Makes macros run inst n
  expanded : ∀ inst n, Makes macros run inst n →
    (∃ data, host.kind? inst = some (.macroInstance data)) ∨ ∃ parent, Makes macros run parent inst

/-- The place of a node in its graph. -/
def nodeIndex : ObjectRef → Nat
  | .node _ n => n.index
  | _ => 0

/-- The tables say of the nodes that a graph had what they said before. -/
structure Kept (name : String) (g : Graph) (log log' : MessageLog) : Prop where
  sources : ∀ n : NodeId, n.index < g.nodes.size →
    log'.sources.lookup (.node name n) = log.sources.lookup (.node name n)
  macroSources : ∀ n : NodeId, n.index < g.nodes.size →
    log'.macroSourceOf? (.node name n) = log.macroSourceOf? (.node name n)
  macroInstances : ∀ object, log.macroInstancesOf object ⊆ log'.macroInstancesOf object

section Steps

variable {host source : Graph} {macros : List Graph} {run extra : List (Expansion × NodeId)}
  {e e' : Expansion} {inst parent n old : NodeId} {name : String} {log log' log'' : MessageLog}

theorem Makes.mono (h : Makes macros run inst n) (extra : List (Expansion × NodeId)) :
    Makes macros (run ++ extra) inst n := by
  obtain ⟨e, kind, data, source, old, hmem, hcopy⟩ := h
  exact ⟨e, kind, data, source, old, List.mem_append_left extra hmem, hcopy⟩

theorem Entered.kept {g : Graph} (h : Entered name source inst old n log)
    (hkept : Kept name g log log') (hn : n.index < g.nodes.size) :
    Entered name source inst old n log' :=
  ⟨(hkept.sources n hn).trans h.traces, (hkept.macroSources n hn).trans h.macroSource,
    hkept.macroInstances _ h.instances⟩

theorem SameTables.kept {g : Graph} (h : SameTables log log') : Kept name g log log' where
  sources n _ := by rw [h.sources]
  macroSources n _ := by rw [MessageLog.macroSourceOf?, h.macroSources, MessageLog.macroSourceOf?]
  macroInstances object := by
    rw [MessageLog.macroInstancesOf, MessageLog.macroInstancesOf, h.macroInstances]
    exact List.Subset.refl _

theorem Kept.trans {g : Graph} (h : Kept name g log log') (h' : Kept name g log' log'') :
    Kept name g log log'' where
  sources n hn := (h'.sources n hn).trans (h.sources n hn)
  macroSources n hn := (h'.macroSources n hn).trans (h.macroSources n hn)
  macroInstances object := List.Subset.trans (h.macroInstances object) (h'.macroInstances object)

/-- Entries for nodes that were made change none for nodes that were there. -/
theorem Noted.kept {r : Remap} {made : NodeId → Prop} {olds : List NodeId} {g : Graph}
    (h : Noted name source inst r made olds log log')
    (hmade : ∀ n : NodeId, n.index < g.nodes.size → ¬made n) : Kept name g log log' where
  sources n hn := h.unsourced n (hmade n hn)
  macroSources n hn := h.others n (hmade n hn)
  macroInstances object := h.listed object

namespace Entries

theorem start (hwf : host.WellFormed) {log : MessageLog}
    (hfresh : ∀ n, log.sources.lookup (host.nodeRef n) = none) :
    Entries host macros [] { graph := host, log } where
  wellFormed := hwf
  widens := .refl host
  authored n _ := hfresh n
  copied t ht := absurd ht List.not_mem_nil
  instances n data hn := .inl ⟨data, hn⟩
  expanded := by
    rintro inst n ⟨e, kind, data, source, old, hmem, -⟩
    exact absurd hmem List.not_mem_nil

/-- A step keeps the entries, if it enters what it copies and brings no other instance in. -/
theorem step (h : Entries host macros run e) (hextra : ∀ t ∈ extra, t.1 = e)
    (hwf : e'.graph.WellFormed) (hwidens : Graph.Widens e.graph e'.graph)
    (hkept : Kept host.name e.graph e.log e'.log)
    (hcopied : ∀ t ∈ extra, ∀ n kind data source old,
      CopiedIn macros e t.2 n kind data source old →
        (e.graph.nodes.size ≤ n.index ∧ n.index < e'.graph.nodes.size) ∧
          Entered host.name source t.2 old n e'.log)
    (hinstances : ∀ n data, e'.graph.kind? n = some (.macroInstance data) →
      e.graph.kind? n = some (.macroInstance data) ∨ ∃ inst, Makes macros extra inst n) :
    Entries host macros (run ++ extra) e' := by
  refine ⟨hwf, h.widens.trans hwidens, fun n hn ↦ ?_, fun t ht n kind data source old hcopy ↦ ?_,
    fun n data hn ↦ ?_, ?_⟩
  · exact (hkept.sources n (Nat.lt_of_lt_of_le hn h.widens.size_nodes)).trans (h.authored n hn)
  · rcases List.mem_append.1 ht with ht | ht
    · obtain ⟨⟨hlater, hlt⟩, hentered⟩ := h.copied t ht n kind data source old hcopy
      exact ⟨⟨hlater, Nat.lt_of_lt_of_le hlt hwidens.size_nodes⟩, hentered.kept hkept hlt⟩
    · obtain rfl := hextra t ht
      obtain ⟨⟨hle, hlt⟩, hentered⟩ := hcopied t ht n kind data source old hcopy
      exact ⟨⟨Nat.lt_of_lt_of_le (lt_size_of_kind? hcopy.instance?) hle, hlt⟩, hentered⟩
  · rcases hinstances n data hn with hold | ⟨inst, hmakes⟩
    · exact (h.instances n data hold).imp_right fun ⟨inst, hmakes⟩ ↦ ⟨inst, hmakes.mono extra⟩
    · obtain ⟨e₀, kind, data, source, old, hmem, hcopy⟩ := hmakes
      exact .inr ⟨inst, e₀, kind, data, source, old, List.mem_append_right run hmem, hcopy⟩
  · rintro inst n ⟨e₀, kind, data, source, old, hmem, hcopy⟩
    rcases List.mem_append.1 hmem with hmem | hmem
    · exact (h.expanded inst n ⟨e₀, kind, data, source, old, hmem, hcopy⟩).imp_right
        fun ⟨parent, hmakes⟩ ↦ ⟨parent, hmakes.mono extra⟩
    · -- what is expanded now is an instance, so it was in the host or has been copied
      obtain rfl := hextra _ hmem
      exact (h.instances inst data hcopy.instance?).imp_right
        fun ⟨parent, hmakes⟩ ↦ ⟨parent, hmakes.mono extra⟩

/-- An instance is removed without a copy. -/
theorem drop (h : Entries host macros run e) (hextra : ∀ t ∈ extra, t.1 = e)
    (hnone : ∀ t ∈ extra, ∀ n kind data source old, ¬CopiedIn macros e t.2 n kind data source old)
    (text : String) (tokens : List SourceToken) (inst : NodeId) :
    Entries host macros (run ++ extra)
      { e.fail text tokens with graph := e.graph.removeNode inst } :=
  h.step hextra (h.wellFormed.removeNode inst) (.removeNode _ _) (SameTables.kept ⟨rfl, rfl, rfl⟩)
    (fun t ht n kind data source old hcopy ↦ absurd hcopy (hnone t ht n kind data source old))
    fun _ _ hn ↦ .inl ((Ages.removeNode e.graph inst).replaced rfl hn)

/-- A turn that expands its instance enters all copies of the body. -/
theorem expandSource (h : Entries host macros run e) (hmacros : ∀ g ∈ macros, g.WellFormed)
    {data : MacroData} (hinst : e.graph.kind? inst = some (.macroInstance data))
    (hfind : macros.find? (·.name == data.macroGraph) = some source) (keep : Bool) :
    Entries host macros (run ++ [(e, inst)]) (expandInstance macros keep e inst) := by
  have hsource := hmacros source (List.mem_of_find?_eq_some hfind)
  have hlt := lt_size_of_kind? hinst
  have hnoted := noted_sectioned hsource data hlt keep
  have hlaid := widens_sectioned e source (source.macroBody data) inst keep
  have hcopies (old new : NodeId) (hold : old ∈ (source.macroBody data).order)
      (hnew : (remapInto (e.addEmptyArrays inst).graph (source.macroBody data)).node? old =
        some new) :=
    madeFor_copy hsource keep hold hnew
  have hwf := (passed_expandInstance hmacros h.wellFormed keep inst).wellFormed
  have hwidens := widens_expandInstance macros keep e inst
  have hkinds (n : NodeId) (kind : NodeKind)
      (hn : (expandInstance macros keep e inst).graph.kind? n = some kind) :=
    (kind?_expandInstance hmacros hn).2
  rw [expandInstance_eq_sectioned hinst hfind] at hwf hwidens hkinds ⊢
  rw [h.widens.name] at hnoted
  dsimp only at *
  generalize e.sectioned source (source.macroBody data) inst keep = u at *
  have htables := SameTables.foldl (sameTables_collapseTunnel inst)
    (copiedTunnels (e.addEmptyArrays inst).graph (source.macroBody data) u.graph) u
  have hrest : Graph.Widens u.graph ((List.foldl (collapseTunnel inst) u
      (copiedTunnels (e.addEmptyArrays inst).graph (source.macroBody data) u.graph)).graph.removeNode
        inst) :=
    ((ages_foldl (ages_collapseTunnel inst) _ u).trans (.removeNode _ inst)).toWidens
  generalize List.foldl _ u _ = e₁ at *
  have hkept : Kept host.name e.graph e.log u.log := hnoted.kept fun n hn hmade ↦
    absurd hn (Nat.not_lt.2 hmade.size_le)
  refine h.step (by simp) hwf hwidens (hkept.trans htables.kept) ?_ ?_
  · intro t ht n kind data' source' old hcopy
    obtain rfl := List.mem_singleton.1 ht
    cases hinst.symm.trans hcopy.instance?
    cases hfind.symm.trans hcopy.source?
    have hold := (hsource.macroBody data).mem_order_of_kind?
      ((kind?_macroBody source data old).trans hcopy.kind?)
    have hmade := hcopies old n hold hcopy.name?
    exact ⟨⟨hmade.size_le, Nat.lt_of_lt_of_le hmade.lt_size hrest.size_nodes⟩,
      (hnoted.copied old hold n hcopy.name?).kept htables.kept hmade.lt_size⟩
  · intro n data' hn
    rcases hkinds n _ hn with hold | ⟨-, hcopied⟩
    · exact .inl hold
    · obtain ⟨-, data₁, source₁, old, hcopy⟩ := hcopied rfl
      exact .inr ⟨inst, e, _, data₁, source₁, old, List.mem_singleton.2 rfl, hcopy⟩

theorem expandInstance (h : Entries host macros run e) (hmacros : ∀ g ∈ macros, g.WellFormed)
    (keep : Bool) (inst : NodeId) :
    Entries host macros (run ++ [(e, inst)]) (expandInstance macros keep e inst) := by
  by_cases hinst : ∃ data, e.graph.kind? inst = some (.macroInstance data)
  · obtain ⟨data, hdata⟩ := hinst
    cases hfind : macros.find? (·.name == data.macroGraph) with
    | some source => exact h.expandSource hmacros hdata hfind keep
    | none =>
      unfold Expansion.expandInstance
      rw [hdata]
      dsimp only
      rw [hfind]
      refine h.drop (by simp) (fun t ht n kind data' source old hcopy ↦ ?_) _ _ inst
      obtain rfl := List.mem_singleton.1 ht
      cases hdata.symm.trans hcopy.instance?
      cases hfind.symm.trans hcopy.source?
  · have hturn : Expansion.expandInstance macros keep e inst = e := by
      unfold Expansion.expandInstance
      split
      · next data hdata => exact absurd ⟨data, hdata⟩ hinst
      · rfl
    rw [hturn]
    refine h.step (by simp) h.wellFormed (.refl _) (SameTables.kept (.refl _))
      (fun t ht n kind data source old hcopy ↦ ?_) fun _ _ ↦ .inl
    obtain rfl := List.mem_singleton.1 ht
    exact absurd ⟨data, hcopy.instance?⟩ hinst

/-! ## Runs -/

theorem turns (hmacros : ∀ g ∈ macros, g.WellFormed) (keep : Bool) (insts : List NodeId)
    (h : Entries host macros run e) :
    Entries host macros (run ++ turns macros keep insts e)
      (insts.foldl (Expansion.expandInstance macros keep) e) := by
  induction insts generalizing run e with
  | nil => simpa [Expansion.turns] using h
  | cons inst insts ih =>
    have hrest := ih (h.expandInstance hmacros keep inst)
    rwa [List.append_assoc] at hrest

theorem abandonAll (h : Entries host macros run e) (insts : List NodeId) :
    Entries host macros run (insts.foldl abandon e) := by
  refine List.foldlRecOn (motive := Entries host macros run) insts abandon h fun e he inst _ ↦ ?_
  have hdropped := he.drop (List.forall_mem_nil _) (List.forall_mem_nil _)
    "Macro node @@ is nested too deeply to expand (is it recursive?)" [e.graph.nodeToken inst] inst
  rwa [List.append_nil] at hdropped

theorem allTurns (hmacros : ∀ g ∈ macros, g.WellFormed) (keep : Bool) (passes : Nat)
    (h : Entries host macros run e) :
    Entries host macros (run ++ allTurns macros keep passes e)
      (expandPasses macros keep passes e) := by
  induction passes generalizing run e with
  | zero => simpa [Expansion.allTurns, expandPasses] using h.abandonAll e.instances
  | succ passes ih =>
    unfold Expansion.allTurns expandPasses
    split
    · simpa using h
    · have hrest := ih (h.turns hmacros keep e.instances)
      rwa [List.append_assoc] at hrest

/-! ## Chains -/

theorem lt_of_makes (h : Entries host macros run e) (hmakes : Makes macros run inst n) :
    inst.index < n.index := by
  obtain ⟨e₀, kind, data, source, old, hmem, hcopy⟩ := hmakes
  exact (h.copied _ hmem n kind data source old hcopy).1.1

theorem traces_of_makes (h : Entries host macros run e) (hmakes : Makes macros run inst n) :
    e.log.Traces (host.nodeRef n) (host.nodeRef inst) := by
  obtain ⟨e₀, kind, data, source, old, hmem, hcopy⟩ := hmakes
  exact (h.copied _ hmem n kind data source old hcopy).2.traces

/-- Every copy comes from an instance of the host: what it was made for is an earlier node. -/
theorem exists_brings (h : Entries host macros run e) (hmakes : Makes macros run inst n) :
    ∃ root, Brings host macros run root n := by
  induction hindex : n.index using Nat.strong_induction_on generalizing inst n with
  | _ index ih =>
    rcases h.expanded inst n hmakes with hhost | ⟨parent, hparent⟩
    · exact ⟨inst, hhost, .single hmakes⟩
    · obtain ⟨root, hroot⟩ := ih inst.index (hindex ▸ h.lt_of_makes hmakes) hparent rfl
      exact ⟨root, hroot.instance?, hroot.makes.tail hmakes⟩

/-- The chain of entries from a copy ends at the instance of the host that brings it in. -/
theorem endsAt_of_brings (h : Entries host macros run e) {root : NodeId}
    (hbrings : Brings host macros run root n) :
    e.log.EndsAt (host.nodeRef n) (host.nodeRef root) := by
  obtain ⟨data, hroot⟩ := hbrings.instance?
  refine ⟨?_, h.authored root (lt_size_of_kind? hroot)⟩
  have hchain {n : NodeId} (hmakes : TransGen (Makes macros run) root n) :
      ReflTransGen e.log.Traces (host.nodeRef n) (host.nodeRef root) := by
    induction hmakes with
    | single hstep => exact .single (h.traces_of_makes hstep)
    | tail _ hstep ih => exact .head (h.traces_of_makes hstep) ih
  exact hchain hbrings.makes

/-- Following the entries gets to the end of that chain: on it they lead to earlier nodes. -/
theorem sourceOf_of_brings (h : Entries host macros run e) {root : NodeId}
    (hbrings : Brings host macros run root n) :
    e.log.sourceOf (host.nodeRef n) = host.nodeRef root := by
  have hend := h.endsAt_of_brings hbrings
  let P (object : ObjectRef) : Prop :=
    ∃ m, ReflTransGen (Makes macros run) root m ∧ object = host.nodeRef m
  suffices hearlier : ∀ object source, P object → e.log.Traces object source →
      P source ∧ nodeIndex source < nodeIndex object from
    (MessageLog.endsAt_sourceOf hearlier ⟨n, hbrings.makes.to_reflTransGen, rfl⟩).unique hend
  rintro object source ⟨m, hmakes, rfl⟩ htraces
  rcases hmakes.cases_tail with rfl | ⟨inst, hinst, hstep⟩
  · rw [MessageLog.Traces, hend.last] at htraces
    cases htraces
  · cases htraces.symm.trans (h.traces_of_makes hstep)
    exact ⟨⟨inst, hinst, rfl⟩, h.lt_of_makes hstep⟩

end Entries

end Steps

end Expansion

open Expansion in
/-- However deep macros are nested, every node that is copied out of one is traced to the instance
of the host that brings it in, to the node of the macro that it copies, and from there to the
instance that it was copied for. -/
theorem traced_expandMacros {host : Graph} {macros : List Graph} (hwf : host.WellFormed)
    (hmacros : ∀ g ∈ macros, g.WellFormed) {log : MessageLog}
    (hfresh : ∀ n, log.sources.lookup (host.nodeRef n) = none) (keep : Bool) {e : Expansion}
    {inst n old : NodeId} {kind : NodeKind} {data : MacroData} {source : Graph}
    (hturn : (e, inst) ∈ allTurns macros keep maxPasses { graph := host, log })
    (hcopy : CopiedIn macros e inst n kind data source old) :
    let run := allTurns macros keep maxPasses { graph := host, log }
    let log' := (expandMacros host macros log keep).log
    (∃ root, Brings host macros run root n) ∧
      (∀ root, Brings host macros run root n →
        log'.sourceOf (host.nodeRef n) = host.nodeRef root) ∧
      log'.macroSourceOf? (host.nodeRef n) = some (source.nodeRef old) ∧
      host.nodeRef inst ∈ log'.macroInstancesOf (source.nodeRef old) := by
  intro run log'
  have hentries : Entries host macros run (expandMacros host macros log keep) :=
    (Entries.start hwf hfresh).allTurns hmacros keep maxPasses
  obtain ⟨-, hentered⟩ := hentries.copied (e, inst) hturn n kind data source old hcopy
  exact ⟨hentries.exists_brings ⟨e, kind, data, source, old, hturn, hcopy⟩,
    fun root hroot ↦ hentries.sourceOf_of_brings hroot, hentered.macroSource, hentered.instances⟩

/-- A function with two instances of one macro, which has an instance of another one in it. -/
def Expansion.repeating : Graph :=
  let (_, g) := (Graph.empty "F").spawn (.macroInstance { macroGraph := "Outer" })
  (g.spawn (.macroInstance { macroGraph := "Outer" })).2

/-- The turns that expand it. -/
def Expansion.repeatingRun : List (Expansion × NodeId) :=
  allTurns [wrapping, printing] true maxPasses { graph := repeating, log := {} }

/-- What there is when that turn comes. -/
def Expansion.repeatingTurn (i : Nat) : Expansion :=
  ((repeatingRun.map Prod.fst)[i]?).getD default

theorem Expansion.mem_repeatingRun {i : Nat} {inst : NodeId}
    (h : (repeatingRun.map Prod.snd)[i]? = some inst) : (repeatingTurn i, inst) ∈ repeatingRun := by
  rw [List.getElem?_map] at h
  obtain ⟨t, ht, rfl⟩ := Option.map_eq_some_iff.1 h
  have hfirst : repeatingTurn i = t.1 := by
    rw [repeatingTurn, List.getElem?_map, ht]
    rfl
  exact hfirst ▸ List.mem_of_getElem? ht

open Expansion in
theorem traced_expandMacros_repeating :
    let log := (expandMacros repeating [wrapping, printing] {} true).log
    repeatingRun.map Prod.snd = [⟨0⟩, ⟨1⟩, ⟨2⟩, ⟨4⟩] ∧
      Brings repeating [wrapping, printing] repeatingRun ⟨1⟩ ⟨8⟩ ∧
      log.sourceOf (repeating.nodeRef ⟨8⟩) = repeating.nodeRef ⟨1⟩ ∧
      log.macroSourceOf? (repeating.nodeRef ⟨8⟩) = some (printing.nodeRef ⟨0⟩) ∧
      repeating.nodeRef ⟨4⟩ ∈ log.macroInstancesOf (printing.nodeRef ⟨0⟩) := by
  have hwf : repeating.WellFormed := by decide +kernel
  have hmacros : ∀ g ∈ [wrapping, printing], g.WellFormed := by decide +kernel
  have hturns : repeatingRun.map Prod.snd = [⟨0⟩, ⟨1⟩, ⟨2⟩, ⟨4⟩] := by decide +kernel
  -- the second turn copies the instance that the last one expands
  have houter : CopiedIn [wrapping, printing] (repeatingTurn 1) ⟨1⟩ ⟨4⟩
      (.macroInstance { macroGraph := "Inner" }) { macroGraph := "Outer" } wrapping ⟨0⟩ :=
    ⟨by decide +kernel, rfl, by decide +kernel, rfl⟩
  have hinner : CopiedIn [wrapping, printing] (repeatingTurn 3) ⟨4⟩ ⟨8⟩
      (.callFunction { function := "Print" }) { macroGraph := "Inner" } printing ⟨0⟩ :=
    ⟨by decide +kernel, rfl, by decide +kernel, rfl⟩
  have hfirst : (repeatingTurn 1, ⟨1⟩) ∈ repeatingRun := mem_repeatingRun (by rw [hturns]; rfl)
  have hlast : (repeatingTurn 3, ⟨4⟩) ∈ repeatingRun := mem_repeatingRun (by rw [hturns]; rfl)
  have hbrings : Brings repeating [wrapping, printing] repeatingRun ⟨1⟩ ⟨8⟩ :=
    ⟨⟨_, rfl⟩, .tail (.single ⟨_, _, _, _, _, hfirst, houter⟩) ⟨_, _, _, _, _, hlast, hinner⟩⟩
  obtain ⟨-, hsource, hcopied, hinstances⟩ :=
    traced_expandMacros hwf hmacros (fun _ ↦ rfl) true hlast hinner
  exact ⟨hturns, hbrings, hsource _ hbrings, hcopied, hinstances⟩

end VisualScript
