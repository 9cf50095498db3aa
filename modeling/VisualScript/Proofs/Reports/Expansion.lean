import VisualScript.Compile.FunctionList
import VisualScript.Proofs.Log

/-!
# Expansions and what they report

The graphs that macros, pages, interfaces and timelines expand to are up to what the
author made, whatever was reported before.
-/

namespace VisualScript

open Logged (Alike)

/-! ## Macros -/

instance : Logged Expansion := ⟨fun e e' ↦ ∃ log, e' = { e with log }⟩

namespace Expansion

theorem graph_of_alike {e e' : Expansion} (h : Alike e e') : e'.graph = e.graph := by
  obtain ⟨log, rfl⟩ := h
  rfl

theorem modify_ignoresLog (f : Graph → Graph) :
    IgnoresLog fun e : Expansion ↦ { e with graph := f e.graph } := by
  rintro e _ ⟨log, rfl⟩
  exact ⟨log, rfl⟩

theorem addEmptyArray_ignoresLog (inst : NodeId) (p : PinId) :
    IgnoresLog (addEmptyArray inst · p) := by
  rintro e _ ⟨log, rfl⟩
  unfold addEmptyArray
  dsimp only
  split
  · exact ⟨_, rfl⟩
  · split
    · exact ⟨_, rfl⟩
    · split
      · exact ⟨_, rfl⟩
      · split <;> exact ⟨_, rfl⟩

theorem addEmptyArrays_ignoresLog (inst : NodeId) : IgnoresLog (addEmptyArrays · inst) := by
  rintro e _ ⟨log, rfl⟩
  exact IgnoresLog.foldl (addEmptyArray_ignoresLog inst) _ ⟨log, rfl⟩

theorem recordCopies_ignoresLog (source body : Graph) (inst : NodeId) (r : Remap) :
    IgnoresLog (recordCopies · source body inst r) := by
  rintro e _ ⟨log, rfl⟩
  have hpins : IgnoresLog fun e' : Expansion ↦ { e' with
      log := r.pins.foldl
        (fun (log : MessageLog) (p : PinId × PinId) ↦
          log.addSource (e'.graph.pinRef p.2) (source.pinRef p.1)) e'.log } := by
    rintro e' _ ⟨log, rfl⟩
    exact ⟨_, rfl⟩
  refine ((IgnoresLog.foldl (fun old ↦ ?_) body.order).comp hpins) ⟨log, rfl⟩
  rintro e' _ ⟨log, rfl⟩
  dsimp only
  split <;> exact ⟨_, rfl⟩

theorem placeCopies_ignoresLog (source : Graph) (inst : NodeId) (copies : List NodeId)
    (keep : Bool) : IgnoresLog (placeCopies · source inst copies keep) := by
  rintro e _ ⟨log, rfl⟩
  unfold placeCopies
  dsimp only
  split
  · exact ⟨_, rfl⟩
  · split <;> exact ⟨_, rfl⟩

theorem collapsePin_ignoresLog (tunnel inst : NodeId) (entry : Bool) (p : PinId) :
    IgnoresLog (collapsePin tunnel inst entry · p) := by
  rintro e _ ⟨log, rfl⟩
  unfold collapsePin
  dsimp only
  generalize (if entry then Direction.output else .input) = side
  split
  · exact ⟨_, rfl⟩
  · split
    · exact ⟨_, rfl⟩
    · split
      · exact ⟨_, rfl⟩
      · split <;> exact ⟨_, rfl⟩

theorem collapseTunnel_ignoresLog (inst tunnel : NodeId) :
    IgnoresLog (collapseTunnel inst · tunnel) := by
  rintro e _ ⟨log, rfl⟩
  unfold collapseTunnel
  dsimp only
  split
  · exact ((IgnoresLog.foldl (collapsePin_ignoresLog tunnel inst _) _).comp
      (modify_ignoresLog (·.removeNode tunnel))) ⟨log, rfl⟩
  · exact ⟨_, rfl⟩

theorem expandInstance_ignoresLog (macros : List Graph) (keep : Bool) (inst : NodeId) :
    IgnoresLog (expandInstance macros keep · inst) := by
  rintro e _ ⟨log, rfl⟩
  unfold expandInstance
  dsimp only
  split
  · split
    · exact ⟨_, rfl⟩
    · next data _ _ source _ =>
      obtain ⟨log', hlog'⟩ := addEmptyArrays_ignoresLog inst ⟨log, rfl⟩
      dsimp only at hlog'
      rw [hlog']
      have hrecorded := recordCopies_ignoresLog source (source.macroBody data) inst
        ((e.addEmptyArrays inst).graph.mergeFragment (source.macroBody data)).1
        (s := { e.addEmptyArrays inst with
          graph := ((e.addEmptyArrays inst).graph.mergeFragment (source.macroBody data)).2 })
        ⟨log', rfl⟩
      have hplaced := placeCopies_ignoresLog source inst ((source.macroBody data).order.filterMap
        ((e.addEmptyArrays inst).graph.mergeFragment (source.macroBody data)).1.node?) keep hrecorded
      dsimp only at hplaced ⊢
      rw [graph_of_alike hplaced]
      exact modify_ignoresLog (·.removeNode inst)
        (IgnoresLog.foldl (collapseTunnel_ignoresLog inst) _ hplaced)
  · exact ⟨_, rfl⟩

theorem expandPasses_ignoresLog (macros : List Graph) (keep : Bool) (passes : Nat) :
    IgnoresLog (expandPasses macros keep passes) := by
  have habandon (inst : NodeId) : IgnoresLog (abandon · inst) := by
    rintro e _ ⟨log, rfl⟩
    exact ⟨_, rfl⟩
  induction passes with
  | zero =>
    rintro e _ ⟨log, rfl⟩
    exact IgnoresLog.foldl habandon _ ⟨log, rfl⟩
  | succ passes ih =>
    rintro e _ ⟨log, rfl⟩
    unfold expandPasses instances
    dsimp only
    split
    · exact ⟨_, rfl⟩
    · exact ih (IgnoresLog.foldl (expandInstance_ignoresLog macros keep) _ ⟨log, rfl⟩)

end Expansion

theorem expandMacros_ignoresLog (g : Graph) (macros : List Graph) (keep : Bool) :
    IgnoresLog fun log : MessageLog ↦ expandMacros g macros log keep :=
  fun _ log _ ↦ Expansion.expandPasses_ignoresLog macros keep _ ⟨log, rfl⟩

/-! ## Pages and interfaces -/

theorem mergePages_ignoresLog (pages : List Graph) (name : String) (keep : Bool) :
    IgnoresLog fun log : MessageLog ↦ mergePages pages name log keep := by
  have hpage (page : Graph) : IgnoresLog (mergePage keep · page) := by
    rintro ⟨_, _, log⟩ ⟨g, grid, log'⟩ ⟨rfl, rfl, -⟩
    unfold mergePage
    dsimp only
    split <;> exact ⟨rfl, rfl, trivial⟩
  intro log log' h
  obtain ⟨g, r, r', hr, hr', h₁⟩ := (IgnoresLog.foldl hpage pages).outcome
    (s := (Graph.empty name, ({} : SpawnGrid), log)) (t := (Graph.empty name, {}, log'))
    ⟨rfl, rfl, h⟩
  unfold mergePages
  dsimp only at hr hr' ⊢
  rw [hr, hr']
  dsimp only
  split <;> exact ⟨rfl, rfl, trivial⟩

theorem spawnOverride_ignoresLog (g : Graph) (interface : Class) (f : Function) :
    IgnoresLog fun log : MessageLog ↦ spawnOverride g interface f log := by
  intro log log' h
  unfold spawnOverride
  dsimp only
  refine ⟨rfl, IgnoresLog.foldl (fun p ↦ ?_) f.parameters ⟨rfl, h⟩⟩
  rintro ⟨_, log⟩ ⟨g, log'⟩ ⟨rfl, -⟩
  dsimp only
  split <;> exact ⟨rfl, trivial⟩

theorem spawnMissingEvents_ignoresLog (g : Graph) (interfaces : List ImplementedInterface) :
    IgnoresLog fun log : MessageLog ↦ spawnMissingEvents g interfaces log := by
  intro log log' h
  unfold spawnMissingEvents
  dsimp only
  refine IgnoresLog.foldl (fun e ↦ ?_) _ ⟨rfl, rfl, h⟩
  obtain ⟨i, f⟩ := e
  rintro ⟨_, _, log⟩ ⟨spawned, g, log'⟩ ⟨rfl, rfl, h⟩
  dsimp only
  split
  · exact ⟨rfl, rfl, h⟩
  · obtain ⟨event, r, r', hr, hr', h₁⟩ := (spawnOverride_ignoresLog g i.interface f).outcome h
    dsimp only at hr hr'
    rw [hr, hr']
    exact ⟨rfl, h₁⟩

/-! ## Stubs -/

theorem EventStub.build_ignoresLog (ubergraph : Graph) (event : NodeId) (schema : Schema)
    (parent : Class) (names : NetNameMap) :
    IgnoresLog fun log : MessageLog ↦ build ubergraph event schema parent names log := by
  intro log log' _
  unfold build
  dsimp only
  split
  · split
    · exact ⟨rfl, rfl, trivial⟩
    · split <;> exact ⟨rfl, rfl, trivial⟩
  · exact ⟨rfl, rfl, trivial⟩

/-! ## Timelines -/

namespace Timelines

instance : Logged State := ⟨fun s s' ↦ ∃ log, s' = { s with log }⟩

theorem expandControl_ignoresLog (node : NodeId) (template : TimelineTemplate)
    (position : Position) (control : String × Nat) :
    IgnoresLog (expandControl node template position · control) := by
  rintro s _ ⟨log, rfl⟩
  unfold expandControl getterFor
  dsimp only
  split
  · exact ⟨_, rfl⟩
  · split
    · exact ⟨_, rfl⟩
    · split <;> exact ⟨_, rfl⟩

theorem eventFor_ignoresLog (node : NodeId) (position : Position) (function : String) (row : Nat) :
    IgnoresLog (eventFor · node position function row) := by
  rintro s _ ⟨log, rfl⟩
  unfold eventFor
  dsimp only
  split <;> exact ⟨rfl, _, rfl⟩

theorem expandTrack_ignoresLog (node : NodeId) (position : Position)
    (track : (String × String) × Nat) : IgnoresLog (expandTrack node position · track) := by
  intro s s' h
  obtain ⟨⟨pinName, function⟩, row⟩ := track
  obtain ⟨event, s₁, _, hs, hs', log, rfl⟩ :=
    (eventFor_ignoresLog node position function row).outcome h
  unfold expandTrack
  dsimp only at hs hs' ⊢
  rw [hs, hs']
  dsimp only
  split <;> exact ⟨_, rfl⟩

theorem expandNode_ignoresLog (template : TimelineTemplate) (node : NodeId) :
    IgnoresLog (expandNode template node) := by
  rintro s _ ⟨log, rfl⟩
  unfold expandNode
  dsimp only
  generalize NodeKind.timelineControls.zipIdx = controls
  obtain ⟨log', hlog'⟩ := IgnoresLog.foldl
    (expandControl_ignoresLog node template (positionOf s.graph node)) controls
    (s := { s with getter := none }) ⟨log, rfl⟩
  dsimp only at hlog'
  rw [hlog']
  exact IgnoresLog.foldl (expandTrack_ignoresLog node _) _ ⟨log', rfl⟩

end Timelines

theorem expandTimelines_ignoresLog (g : Graph) (templates : List TimelineTemplate) :
    IgnoresLog fun log : MessageLog ↦ expandTimelines g templates log := by
  intro log log' h
  unfold expandTimelines
  dsimp only
  refine IgnoresLog.foldl (fun node ↦ ?_) _ ⟨rfl, rfl, h⟩
  rintro ⟨_, _, log⟩ ⟨ok, g, log'⟩ ⟨rfl, rfl, -⟩
  dsimp only
  split
  · split
    · exact ⟨rfl, rfl, trivial⟩
    · next template _ =>
      obtain ⟨log'', hlog''⟩ := Timelines.expandNode_ignoresLog template node
        (s := { graph := g, log }) (t := { graph := g, log := log' }) ⟨log', rfl⟩
      rw [hlog'']
      exact ⟨rfl, rfl, trivial⟩
  · exact ⟨rfl, rfl, trivial⟩

end VisualScript
