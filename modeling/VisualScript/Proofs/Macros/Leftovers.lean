import VisualScript.Proofs.Graph.Widening
import VisualScript.Proofs.Macros.Carrying

/-!
# What expansion leaves

A turn takes its instance away, whatever comes of it, and every tunnel that it copied.  So what is
left to do after a pass are the instances that the bodies brought in.  After the last pass they are
given up, so that no instance is left and expanding again finds nothing to do.
-/

namespace VisualScript

/-- What a step makes true and no step makes false is true in the end. -/
theorem foldl_of_mem {σ α : Type} {P : σ → Prop} {f : σ → α → σ} {l : List α} {a : α} (ha : a ∈ l)
    (hset : ∀ s, P (f s a)) (hkeep : ∀ s, ∀ b ∈ l, P s → P (f s b)) (s : σ) : P (l.foldl f s) := by
  obtain ⟨before, after, rfl⟩ := List.append_of_mem ha
  rw [List.foldl_append, List.foldl_cons]
  refine List.foldlRecOn (motive := P) after f (hset _) fun s h b hb ↦ hkeep s b ?_ h
  exact List.mem_append_right _ (List.mem_cons_of_mem a hb)

namespace Expansion

open VisualScript.Graph

variable {e : Expansion} {macros : List Graph} {keep : Bool} {inst n : NodeId} {kind : NodeKind}

theorem ages_foldl {α : Type} {f : Expansion → α → Expansion}
    (hf : ∀ e a, Ages e.graph (f e a).graph) (l : List α) (e : Expansion) :
    Ages e.graph (l.foldl f e).graph :=
  List.foldlRecOn (motive := fun e' : Expansion ↦ Ages e.graph e'.graph) l f (.refl _)
    fun e' h a _ ↦ h.trans (hf e' a)

theorem ages_addEmptyArray (inst : NodeId) (e : Expansion) (p : PinId) :
    Ages e.graph (addEmptyArray inst e p).graph := by
  unfold addEmptyArray
  split
  · exact .refl _
  · split
    · exact .refl _
    · next pin _ _ =>
      have hplaced : Ages e.graph ((e.graph.spawnIntermediate
          (.makeArray pin.ty.element 0)).2.placeLeftOf
            (e.graph.spawnIntermediate (.makeArray pin.ty.element 0)).1 inst) :=
        (Ages.spawnIntermediate e.graph rfl).trans (.placeLeftOf _ _ inst)
      dsimp only
      split
      · exact hplaced
      · split
        · next hlink =>
          exact hplaced.trans (.of_sameFaces (.makeLink hlink) (sameFaces_makeLink hlink))
        · exact hplaced

theorem ages_addEmptyArrays (e : Expansion) (inst : NodeId) :
    Ages e.graph (e.addEmptyArrays inst).graph :=
  ages_foldl (ages_addEmptyArray inst) _ e

theorem ages_recordCopies (e : Expansion) (source body : Graph) (inst : NodeId) (r : Remap) :
    Ages e.graph (e.recordCopies source body inst r).graph := by
  unfold recordCopies
  dsimp only
  refine ages_foldl (fun e old ↦ ?_) body.order e
  split
  · exact .refl _
  · exact .modifyNode _ _ fun _ ↦ ⟨rfl, rfl⟩

theorem ages_placeCopies (e : Expansion) (source : Graph) (inst : NodeId) (copies : List NodeId)
    (keep : Bool) : Ages e.graph (e.placeCopies source inst copies keep).graph := by
  unfold placeCopies
  split
  · exact .placeSection e.grid e.graph copies _
  · split
    · exact .refl _
    · exact .offsetNodes _ _ _ _

theorem ages_collapsePin (tunnel inst : NodeId) (entry : Bool) (e : Expansion) (p : PinId) :
    Ages e.graph (collapsePin tunnel inst entry e p).graph := by
  unfold collapsePin
  extract_lets side
  split
  · exact .refl _
  · split
    · exact .refl _
    · split
      · exact .refl _
      · next instPin _ =>
        have hwire : Ages e.graph (e.graph.rewireThrough instPin p entry).1 :=
          .of_sameFaces (.rewireThrough _ _ _ _) (sameFaces_rewireThrough _ _ _ _)
        dsimp only
        split
        · exact hwire
        · exact hwire

theorem ages_collapseTunnel (inst : NodeId) (e : Expansion) (tunnel : NodeId) :
    Ages e.graph (collapseTunnel inst e tunnel).graph := by
  unfold collapseTunnel
  split
  · exact (ages_foldl (ages_collapsePin tunnel inst _) _ e).trans (.removeNode _ tunnel)
  · exact .refl _

/-- A tunnel goes in its turn, whether or not its pins find their counterparts. -/
theorem kind?_collapseTunnel_ne (inst : NodeId) (e : Expansion) (tunnel : NodeId) (entry : Bool) :
    (collapseTunnel inst e tunnel).graph.kind? tunnel ≠ some (.tunnel entry) := by
  unfold collapseTunnel
  split
  · rw [kind?_removeNode_self]
    exact (Option.some_ne_none _).symm
  · next hnot => exact fun hkind ↦ hnot entry hkind

theorem kind?_collapseTunnels_ne {tunnels : List NodeId} (hn : n ∈ tunnels) (entry : Bool) :
    (tunnels.foldl (collapseTunnel inst) e).graph.kind? n ≠ some (.tunnel entry) := by
  refine foldl_of_mem (P := fun e : Expansion ↦ e.graph.kind? n ≠ some (.tunnel entry)) hn
    (fun e ↦ kind?_collapseTunnel_ne inst e n entry) (fun e tunnel _ hne hkind ↦ ?_) e
  exact hne ((ages_collapseTunnel inst e tunnel).replaced rfl hkind)

/-- Once the tunnels are collapsed and the instance is removed, none of them is left. -/
theorem kind?_cleared {tunnels : List NodeId}
    (hn : ((tunnels.foldl (collapseTunnel inst) e).graph.removeNode inst).kind? n = some kind) :
    n ≠ inst ∧ (e.graph.kind? n = some kind ∧ (n ∈ tunnels → ∀ entry, kind ≠ .tunnel entry) ∨
      e.graph.nodes.size ≤ n.index ∧ kind.isReplaced = false) := by
  have hcollapsed := ages_foldl (ages_collapseTunnel inst) tunnels e
  have hremoved := Ages.removeNode (tunnels.foldl (collapseTunnel inst) e).graph inst
  refine ⟨?_, ((hcollapsed.trans hremoved).kind? n kind hn).imp_left fun hkind ↦ ⟨hkind, ?_⟩⟩
  · rintro rfl
    rw [kind?_removeNode_self] at hn
    cases hn
  · rintro hmem entry rfl
    exact kind?_collapseTunnels_ne hmem entry (hremoved.replaced rfl hn)

/-! ## A turn -/

/-- The node is a copy of a node of the body that the instance is replaced by. -/
structure CopiedIn (macros : List Graph) (e : Expansion) (inst n : NodeId) (kind : NodeKind)
    (data : MacroData) (source : Graph) (old : NodeId) : Prop where
  instance? : e.graph.kind? inst = some (.macroInstance data)
  source? : macros.find? (·.name == data.macroGraph) = some source
  name? : (remapInto (e.addEmptyArrays inst).graph (source.macroBody data)).node? old = some n
  kind? : source.kind? old = some kind

theorem kind?_macroBody (source : Graph) (data : MacroData) (n : NodeId) :
    (source.macroBody data).kind? n = source.kind? n := by
  unfold macroBody
  dsimp only
  split
  · exact List.foldlRecOn (motive := fun g : Graph ↦ g.kind? n = source.kind? n) _ _ rfl
      fun g h p _ ↦ h
  · rfl

/-- Recording and placing the copies adds none. -/
theorem ages_sectioned (e : Expansion) (source body : Graph) (inst : NodeId) (keep : Bool) :
    Ages ((e.addEmptyArrays inst).graph.mergeFragment body).2
      (e.sectioned source body inst keep).graph := by
  have hrecorded := ages_recordCopies { e.addEmptyArrays inst with
    graph := ((e.addEmptyArrays inst).graph.mergeFragment body).2 } source body inst
      (remapInto (e.addEmptyArrays inst).graph body)
  exact hrecorded.trans (ages_placeCopies _ source inst _ keep)

theorem widens_sectioned (e : Expansion) (source body : Graph) (inst : NodeId) (keep : Bool) :
    Graph.Widens e.graph (e.sectioned source body inst keep).graph := by
  refine Graph.Widens.trans ?_ (ages_sectioned e source body inst keep).toWidens
  exact (ages_addEmptyArrays e inst).toWidens.trans (.mergeFragment _ _)

/-- Before its tunnels are collapsed the body lies beside what was there. -/
theorem kind?_sectioned {source body : Graph} (hbody : body.WellFormed)
    (hn : (e.sectioned source body inst keep).graph.kind? n = some kind) :
    e.graph.kind? n = some kind ∨ e.graph.nodes.size ≤ n.index ∧ (kind.isReplaced = true →
      ∃ old, (remapInto (e.addEmptyArrays inst).graph body).node? old = some n ∧
        body.kind? old = some kind) := by
  have harrays := ages_addEmptyArrays e inst
  have hmerge := Graph.Widens.mergeFragment (e.addEmptyArrays inst).graph body
  rcases (ages_sectioned e source body inst keep).kind? n kind hn with hmerged | ⟨hle, hkind⟩
  · obtain ⟨node, hnode, hkind⟩ := Option.map_eq_some_iff.1 hmerged
    rcases node?_mergeFragment_eq_some.1 hnode with hhost | ⟨i, old, hold, rfl, rfl⟩
    · have hold : (e.addEmptyArrays inst).graph.kind? n = some kind := by
        rw [kind?, hhost, ← hkind]
        rfl
      rcases harrays.kind? n kind hold with hsame | ⟨hle, hkind⟩
      · exact .inl hsame
      · refine .inr ⟨hle, fun hreplaced ↦ ?_⟩
        rw [hreplaced] at hkind
        cases hkind
    · have hname : (remapInto (e.addEmptyArrays inst).graph body).node? old.id =
          some ⟨(e.addEmptyArrays inst).graph.nodes.size + i⟩ := node?_remapInto hbody hold
      refine .inr ⟨harrays.size_nodes.trans (size_le_of_remapInto hname), fun _ ↦
        ⟨old.id, hname, ?_⟩⟩
      rw [kind?, hbody.mem_liveNodes.1 (List.mem_of_getElem? hold), ← hkind]
      rfl
  · refine .inr ⟨(harrays.size_nodes.trans hmerge.size_nodes).trans hle, fun hreplaced ↦ ?_⟩
    rw [hreplaced] at hkind
    cases hkind

/-- After a turn its instance is gone.  Other nodes keep their kinds, and what expansion replaces
is new only if it is an instance or a reroute that was copied in. -/
theorem kind?_expandInstance (hmacros : ∀ g ∈ macros, g.WellFormed)
    (hn : (expandInstance macros keep e inst).graph.kind? n = some kind) :
    (n = inst → ∀ data, kind ≠ .macroInstance data) ∧
      (e.graph.kind? n = some kind ∨ e.graph.nodes.size ≤ n.index ∧ (kind.isReplaced = true →
        (∀ entry, kind ≠ .tunnel entry) ∧
          ∃ data source old, CopiedIn macros e inst n kind data source old)) := by
  by_cases hinst : ∃ data, e.graph.kind? inst = some (.macroInstance data)
  · obtain ⟨data, hdata⟩ := hinst
    cases hsource : macros.find? (·.name == data.macroGraph) with
    | none =>
      have hturn : (expandInstance macros keep e inst).graph = e.graph.removeNode inst := by
        unfold expandInstance
        rw [hdata]
        dsimp only
        rw [hsource]
        rfl
      rw [hturn] at hn
      refine ⟨?_, ((Ages.removeNode _ _).kind? n kind hn).imp_right fun ⟨hle, hkind⟩ ↦
        ⟨hle, fun hreplaced ↦ ?_⟩⟩
      · rintro rfl
        rw [kind?_removeNode_self] at hn
        cases hn
      · rw [hreplaced] at hkind
        cases hkind
    | some source =>
      have hbody := (hmacros source (List.mem_of_find?_eq_some hsource)).macroBody data
      rw [expandInstance_eq_sectioned hdata hsource] at hn
      dsimp only at hn
      obtain ⟨hne, hcleared⟩ := kind?_cleared hn
      have hsize := widens_sectioned e source (source.macroBody data) inst keep
      refine ⟨fun heq ↦ absurd heq hne, ?_⟩
      rcases hcleared with ⟨hlaid, hnot⟩ | ⟨hle, hkind⟩
      · refine (kind?_sectioned hbody hlaid).imp_right fun ⟨hle, hcopy⟩ ↦
          ⟨hle, fun hreplaced ↦ ?_⟩
        obtain ⟨old, hname, hkind⟩ := hcopy hreplaced
        refine ⟨?_, data, source, old, hdata, hsource, hname,
          (kind?_macroBody source data old).symm.trans hkind⟩
        rintro entry rfl
        -- a tunnel among the copies has had its turn
        refine hnot ?_ entry rfl
        rw [copiedTunnels, mem_tunnelsOf, List.mem_filterMap]
        exact ⟨⟨old, hbody.mem_order_of_kind? hkind, hname⟩, kindIs_tunnel.2 ⟨entry, hlaid⟩⟩
      · refine .inr ⟨hsize.size_nodes.trans hle, fun hreplaced ↦ ?_⟩
        rw [hreplaced] at hkind
        cases hkind
  · have hturn : expandInstance macros keep e inst = e := by
      unfold expandInstance
      split
      · next data hdata => exact absurd ⟨data, hdata⟩ hinst
      · rfl
    rw [hturn] at hn
    refine ⟨?_, .inl hn⟩
    rintro rfl data rfl
    exact hinst ⟨data, hn⟩

/-- No name comes back in a turn. -/
theorem widens_expandInstance (macros : List Graph) (keep : Bool) (e : Expansion) (inst : NodeId) :
    Graph.Widens e.graph (expandInstance macros keep e inst).graph := by
  unfold expandInstance
  split
  · next data _ =>
    split
    · exact .removeNode _ inst
    · next source _ =>
      refine Graph.Widens.trans ?_ (.removeNode _ inst)
      refine Graph.Widens.trans ?_ (ages_foldl (ages_collapseTunnel inst) _ _).toWidens
      exact widens_sectioned e source (source.macroBody data) inst keep
  · exact .refl _

/-! ## A pass -/

/-- One pass over the instances that are there. -/
def pass (macros : List Graph) (keep : Bool) (e : Expansion) : Expansion :=
  e.instances.foldl (expandInstance macros keep) e

theorem mem_instances (hwf : e.graph.WellFormed) :
    n ∈ e.instances ↔ ∃ data, e.graph.kind? n = some (.macroInstance data) := by
  refine hwf.mem_nodesWhere.trans ⟨?_, ?_⟩
  · rintro ⟨kind, hkind, hinstance⟩
    cases kind with
    | macroInstance data => exact ⟨data, hkind⟩
    | _ => cases hinstance
  · rintro ⟨data, hdata⟩
    exact ⟨_, hdata, rfl⟩

/-- Instances that had their turns are gone, and no tunnel is new. -/
structure Passed (insts : List NodeId) (e e' : Expansion) : Prop where
  wellFormed : e'.graph.WellFormed
  widens : Graph.Widens e.graph e'.graph
  kind? : ∀ n kind, e'.graph.kind? n = some kind →
    e.graph.kind? n = some kind ∨ e.graph.nodes.size ≤ n.index ∧ ∀ entry, kind ≠ .tunnel entry
  gone : ∀ n ∈ insts, ∀ data, e.graph.kind? n = some (.macroInstance data) →
    e'.graph.contains n = false

namespace Passed

variable {e' e'' : Expansion} {insts insts' : List NodeId}

theorem refl (hwf : e.graph.WellFormed) : Passed [] e e :=
  ⟨hwf, .refl _, fun _ _ ↦ .inl, fun _ h ↦ absurd h List.not_mem_nil⟩

theorem trans (h : Passed insts e e') (h' : Passed insts' e' e'') :
    Passed (insts ++ insts') e e'' where
  wellFormed := h'.wellFormed
  widens := h.widens.trans h'.widens
  kind? n kind hn := by
    rcases h'.kind? n kind hn with hold | ⟨hle, hkind⟩
    · exact h.kind? n kind hold
    · exact .inr ⟨h.widens.size_nodes.trans hle, hkind⟩
  gone n hn data hdata := by
    have hlt := lt_size_of_kind? hdata
    cases hmid : e'.graph.node? n with
    | none =>
      rw [contains, h'.widens.node? n (Nat.lt_of_lt_of_le hlt h.widens.size_nodes) hmid]
      rfl
    | some node =>
      -- the instance is still what it was, so its turn comes in the second part
      have hkind : e'.graph.kind? n = some node.kind := by
        rw [Graph.kind?, hmid]
        rfl
      have hsame := (h.kind? n node.kind hkind).resolve_right fun hnew ↦
        absurd hlt (Nat.not_lt.2 hnew.1)
      rw [hdata] at hsame
      rcases List.mem_append.1 hn with hn | hn
      · have hgone := h.gone n hn data hdata
        rw [contains, hmid] at hgone
        cases hgone
      · exact h'.gone n hn data (hkind.trans hsame.symm)

end Passed

theorem passed_expandInstance (hmacros : ∀ g ∈ macros, g.WellFormed) (hwf : e.graph.WellFormed)
    (keep : Bool) (inst : NodeId) : Passed [inst] e (expandInstance macros keep e inst) where
  wellFormed := keptAround_wellFormed.expandInstance hwf
    (fun g hg data ↦ (hmacros g hg).macroBody data) keep inst
  widens := widens_expandInstance macros keep e inst
  kind? n kind hn := by
    refine (kind?_expandInstance hmacros hn).2.imp_right fun ⟨hle, hcopy⟩ ↦ ⟨hle, ?_⟩
    rintro entry rfl
    exact (hcopy rfl).1 entry rfl
  gone n hn data hdata := by
    obtain rfl := List.mem_singleton.1 hn
    cases hnode : (expandInstance macros keep e n).graph.node? n with
    | none =>
      rw [contains, hnode]
      rfl
    | some node =>
      have hkind : (expandInstance macros keep e n).graph.kind? n = some node.kind := by
        rw [Graph.kind?, hnode]
        rfl
      obtain ⟨hnot, hold⟩ := kind?_expandInstance hmacros hkind
      have hsame := hold.resolve_right fun hnew ↦
        absurd (lt_size_of_kind? hdata) (Nat.not_lt.2 hnew.1)
      rw [hdata] at hsame
      exact absurd (Option.some.inj hsame).symm (hnot rfl data)

theorem passed_foldl (hmacros : ∀ g ∈ macros, g.WellFormed) (insts : List NodeId) (keep : Bool)
    (hwf : e.graph.WellFormed) :
    Passed insts e (insts.foldl (expandInstance macros keep) e) := by
  induction insts generalizing e with
  | nil => exact .refl hwf
  | cons inst insts ih =>
    have hturn := passed_expandInstance hmacros hwf keep inst
    exact hturn.trans (ih hturn.wellFormed)

theorem ages_abandon (e : Expansion) (inst : NodeId) : Ages e.graph (abandon e inst).graph :=
  .removeNode _ _

theorem passed_abandon (hwf : e.graph.WellFormed) (inst : NodeId) :
    Passed [inst] e (abandon e inst) where
  wellFormed := hwf.removeNode inst
  widens := .removeNode _ _
  kind? n kind hn := by
    refine ((Ages.removeNode _ _).kind? n kind hn).imp_right fun ⟨hle, hkind⟩ ↦ ⟨hle, ?_⟩
    rintro entry rfl
    cases hkind
  gone n hn data _ := by
    obtain rfl := List.mem_singleton.1 hn
    have hnone : (abandon e n).graph.kind? n = none := kind?_removeNode_self _ n
    rw [contains, Option.isSome_eq_false_iff, Option.isNone_iff_eq_none]
    exact Option.map_eq_none_iff.1 hnone

theorem passed_abandonAll (insts : List NodeId) (hwf : e.graph.WellFormed) :
    Passed insts e (insts.foldl abandon e) := by
  induction insts generalizing e with
  | nil => exact .refl hwf
  | cons inst insts ih =>
    have hturn := passed_abandon hwf inst
    exact hturn.trans (ih hturn.wellFormed)

/-! ## All passes -/

theorem exists_passed_run (hmacros : ∀ g ∈ macros, g.WellFormed) (hwf : e.graph.WellFormed)
    (keep : Bool) (k : Nat) : ∃ insts, Passed insts e ((pass macros keep)^[k] e) := by
  induction k with
  | zero => exact ⟨[], .refl hwf⟩
  | succ k ih =>
    obtain ⟨insts, h⟩ := ih
    rw [Function.iterate_succ_apply']
    exact ⟨_, h.trans (passed_foldl hmacros _ keep h.wellFormed)⟩

/-- The passes end when there is no instance, or after the last one, with those that are left
given up. -/
theorem exists_expandPasses_eq (macros : List Graph) (keep : Bool) (passes : Nat) (e : Expansion) :
    ∃ k ≤ passes, (∀ i < k, ((pass macros keep)^[i] e).instances ≠ []) ∧
      (((pass macros keep)^[k] e).instances = [] ∧
          expandPasses macros keep passes e = (pass macros keep)^[k] e ∨
        k = passes ∧ expandPasses macros keep passes e =
          ((pass macros keep)^[k] e).instances.foldl abandon ((pass macros keep)^[k] e)) := by
  induction passes generalizing e with
  | zero => exact ⟨0, Nat.le_refl _, fun i hi ↦ absurd hi (Nat.not_lt_zero i), .inr ⟨rfl, rfl⟩⟩
  | succ passes ih =>
    by_cases hnone : e.instances = []
    · refine ⟨0, Nat.zero_le _, fun i hi ↦ absurd hi (Nat.not_lt_zero i), .inl ⟨hnone, ?_⟩⟩
      rw [expandPasses, hnone]
      rfl
    · have hstep : expandPasses macros keep (passes + 1) e =
          expandPasses macros keep passes (pass macros keep e) := by
        rw [expandPasses, if_neg (by rwa [List.isEmpty_iff]), pass]
      obtain ⟨k, hk, hbefore, hend⟩ := ih (pass macros keep e)
      rw [hstep]
      refine ⟨k + 1, Nat.succ_le_succ hk, fun i hi ↦ ?_, ?_⟩
      · cases i with
        | zero => exact hnone
        | succ i => exact hbefore i (Nat.lt_of_succ_lt_succ hi)
      · exact hend.imp_right fun ⟨hk, heq⟩ ↦ ⟨congrArg _ hk, heq⟩

end Expansion

open Expansion in
/-- What the expansion of all macros leaves.  It is a run of at most `maxPasses` passes, each of
which takes away the instances that it began with. -/
structure Expansion.Finished (host : Graph) (macros : List Graph) (log : MessageLog) (keep : Bool)
    (e : Expansion) : Prop where
  run : ∃ k ≤ maxPasses,
    (∀ i < k, ((pass macros keep)^[i] { graph := host, log }).instances ≠ [] ∧
      ∀ inst ∈ ((pass macros keep)^[i] { graph := host, log }).instances,
        ((pass macros keep)^[i + 1] { graph := host, log }).graph.contains inst = false) ∧
    (((pass macros keep)^[k] { graph := host, log }).instances = [] ∧
        e = (pass macros keep)^[k] { graph := host, log } ∨
      k = maxPasses ∧ e = ((pass macros keep)^[k] { graph := host, log }).instances.foldl abandon
        ((pass macros keep)^[k] { graph := host, log }))
  instances : ∀ n data, e.graph.kind? n ≠ some (.macroInstance data)
  tunnels : ∀ n entry, e.graph.kind? n = some (.tunnel entry) → host.kind? n = some (.tunnel entry)
  ok : e.ok = true ↔ e.log.numErrors = log.numErrors
  again : expandMacros e.graph macros e.log keep = { graph := e.graph, log := e.log }

open Expansion VisualScript.Graph in
/-- Expanding all macros ends, also where they contain each other, leaves no instance and no tunnel
of a body, and succeeds if and only if it logs no error.  Expanding again does nothing. -/
theorem finished_expandMacros {host : Graph} {macros : List Graph} (hwf : host.WellFormed)
    (hmacros : ∀ g ∈ macros, g.WellFormed ∧ g.Linked) (log : MessageLog) (keep : Bool) :
    Expansion.Finished host macros log keep (expandMacros host macros log keep) := by
  have hformed : ∀ g ∈ macros, g.WellFormed := fun g hg ↦ (hmacros g hg).1
  have hrun (k : Nat) := exists_passed_run (e := { graph := host, log }) hformed hwf keep k
  obtain ⟨k, hk, hbefore, hend⟩ :=
    exists_expandPasses_eq macros keep maxPasses { graph := host, log }
  obtain ⟨insts, hpassed⟩ := hrun k
  have htells : Tells { graph := host, log } (expandMacros host macros log keep) :=
    tells_expandPasses hmacros hwf keep maxPasses
  change _ ∧ expandMacros host macros log keep = _ ∨ _ ∧ expandMacros host macros log keep = _ at hend
  generalize expandMacros host macros log keep = e at *
  -- either way the passes have taken every instance away
  obtain ⟨insts', hall, hnone⟩ : ∃ insts', Passed insts' { graph := host, log } e ∧
      ∀ n data, e.graph.kind? n ≠ some (.macroInstance data) := by
    rcases hend with ⟨hempty, rfl⟩ | ⟨-, rfl⟩
    · refine ⟨insts, hpassed, fun n data hdata ↦ ?_⟩
      have hmem := (mem_instances hpassed.wellFormed).2 ⟨data, hdata⟩
      rw [hempty] at hmem
      cases hmem
    · have hlast := passed_abandonAll ((pass macros keep)^[k] { graph := host, log }).instances
        hpassed.wellFormed
      refine ⟨_, hpassed.trans hlast, fun n data hdata ↦ ?_⟩
      have hold := (ages_foldl ages_abandon _ _).replaced rfl hdata
      have hgone := hlast.gone n ((mem_instances hpassed.wellFormed).2 ⟨data, hold⟩) data hold
      rw [contains_of_kind? hdata] at hgone
      cases hgone
  refine ⟨⟨k, hk, fun i hi ↦ ⟨hbefore i hi, fun inst hinst ↦ ?_⟩, hend⟩, hnone, ?_, ?_, ?_⟩
  · obtain ⟨before, hi⟩ := hrun i
    obtain ⟨data, hdata⟩ := (mem_instances hi.wellFormed).1 hinst
    rw [Function.iterate_succ_apply']
    exact (passed_foldl hformed _ keep hi.wellFormed).gone inst hinst data hdata
  · intro n entry hn
    refine (hall.kind? n _ hn).resolve_right ?_
    rintro ⟨-, hnot⟩
    exact hnot entry rfl
  · have hle := htells.errors
    refine (htells.ok.trans (and_iff_right rfl)).trans ⟨fun h ↦ ?_, fun h ↦ ?_⟩
    · exact Nat.le_antisymm h hle
    · exact Nat.le_of_eq h
  · have hempty : e.instances = [] := by
      refine List.eq_nil_iff_forall_not_mem.2 fun n hn ↦ ?_
      obtain ⟨data, hdata⟩ := (mem_instances hall.wellFormed).1 hn
      exact hnone n data hdata
    show expandPasses macros keep (63 + 1) _ = _
    rw [expandPasses]
    exact if_pos (List.isEmpty_iff.2 hempty)

/-- A macro that contains itself. -/
def Expansion.endless : Graph :=
  ((Graph.empty "Endless").spawn (.macroInstance { macroGraph := "Endless" })).2

/-- A function with a tunnel and an instance of the macro that contains itself. -/
def Expansion.starting : Graph :=
  let (_, g) := (Graph.empty "F").spawn (.tunnel true)
  (g.spawn (.macroInstance { macroGraph := "Endless" })).2

theorem finished_expandMacros_endless :
    Expansion.starting.WellFormed ∧
    (∀ g ∈ [Expansion.endless], g.WellFormed ∧ g.Linked) ∧
    Expansion.Finished Expansion.starting [Expansion.endless] {} false
      (expandMacros Expansion.starting [Expansion.endless] {} false) := by
  have hwf : Expansion.starting.WellFormed := by decide +kernel
  have hmacros : ∀ g ∈ [Expansion.endless], g.WellFormed ∧ g.Linked := by decide +kernel
  exact ⟨hwf, hmacros, finished_expandMacros hwf hmacros {} false⟩

end VisualScript
