import VisualScript.Proofs.Timelines.Growing

/-!
# Stages of an expansion

A stage of the expansion of timelines moves the links of some pins of timeline nodes to pins of
other nodes.  What one stage has done stays done in the next, so that stages which move different
pins can be put together.
-/

namespace VisualScript.Timelines

open VisualScript.Graph

/-! ## The parts of a timeline node -/

/-- Where a pin is. -/
structure Spot where
  node : NodeId
  direction : Direction
  name : String

/-- The pin is there. -/
def Spot.Holds (spot : Spot) (g : Graph) (p : PinId) : Prop :=
  g.PinAt spot.node spot.direction spot.name p

theorem Spot.Holds.unique {spot spot' : Spot} {g : Graph} {p : PinId} (h : spot.Holds g p)
    (h' : spot'.Holds g p) : spot' = spot := by
  obtain ⟨n, d, name⟩ := spot
  obtain ⟨n', d', name'⟩ := spot'
  obtain ⟨rfl, rfl, rfl⟩ := PinAt.unique h h'
  rfl

/-- The member that holds the component of a timeline. -/
def component (T : String) : VariableReference := .selfMember T (.object timelineComponentClass)

/-- The output of a node that reads the component of the timeline `T`. -/
def IsComponent (g : Graph) (T : String) (p : PinId) : Prop :=
  ∃ getter, g.kind? getter = some (.variableGet (component T)) ∧ g.PinAt getter .output T p

/-- The node is a call of a control on such a component. -/
structure Calls (g : Graph) (T c : String) (call : NodeId) : Prop where
  kind? : g.kind? call = some (.callFunction (.external c timelineComponentClass false))
  component : ∃ value self, IsComponent g T value ∧ g.PinAt call .input PinName.self self ∧
    value ∈ g.linksOf self

/-- Something is linked to the control. -/
def Wired (g : Graph) (n : NodeId) (c : String) : Prop :=
  ∃ p, g.PinAt n .input c p ∧ g.linksOf p ≠ []

/-- The inputs of a timeline node whose links a control takes along, and the inputs of the call
that they go to. -/
def routes (c : String) : List (String × String) :=
  (c, PinName.execute) :: if c = setNewTime then [(PinName.newTime, PinName.newTime)] else []

/-- They go to different inputs. -/
theorem routes_inj {c : String} {r r' : String × String} (hr : r ∈ routes c) (hr' : r' ∈ routes c)
    (heq : r.2 = r'.2) : r = r' := by
  have hnodup : ((routes c).map Prod.snd).Nodup := by
    unfold routes
    split
    · exact (by decide : [PinName.execute, PinName.newTime].Nodup)
    · exact List.nodup_singleton _
  exact List.inj_on_of_nodup_map hnodup hr hr' heq

/-- A control of a node of the timeline `T`, or an output of such a node that starts a function. -/
inductive Part
  | control (node : NodeId) (T c : String)
  | track (node : NodeId) (pin function : String)

namespace Part

def node : Part → NodeId
  | control n _ _ => n
  | track n _ _ => n

/-- Where the pins are whose links are moved. -/
def spots : Part → List Spot
  | control n _ c => (routes c).map fun r ↦ ⟨n, .input, r.1⟩
  | track n pin _ => [⟨n, .output, pin⟩]

theorem node_of_mem_spots {part : Part} {spot : Spot} (h : spot ∈ part.spots) :
    spot.node = part.node := by
  cases part with
  | control n T c =>
    obtain ⟨r, -, rfl⟩ := List.mem_map.1 h
    rfl
  | track n pin function =>
    rw [List.mem_singleton.1 h]
    rfl

/-- The links at the part of `g` have been moved to where they belong in `g'`. -/
def Met (g g' : Graph) (f : PinId → PinId) : Part → Prop
  | control n T c =>
    (Wired g n c → ∃ call, Calls g' T c call ∧ ∀ r ∈ routes c, ∀ q,
      g.PinAt n .input r.1 q →
        g'.PinAt call .input r.2 (f q) ∧ g'.defaultsOf? (f q) = g.defaultsOf? q) ∧
    (¬Wired g n c → ∀ r ∈ routes c, ∀ q, g.PinAt n .input r.1 q → f q = q)
  | track n pin function => ∃ event e, g'.kind? event = some (.event e) ∧ e.function = function ∧
    ∀ p, g.PinAt n .output pin p → g'.PinAt event .output PinName.thenOut (f p)

end Part

/-! ## Stages -/

/-- The parts of `g` have been expanded: `f` says where the links of a pin have gone, and `joins`
which links are new. -/
structure Stage (parts : List Part) (f : PinId → PinId) (joins : PinId → PinId → Prop)
    (g g' : Graph) : Prop extends Evolves f joins g g' where
  directed : ∀ p d, g.directionOf? p = some d → g'.directionOf? (f p) = some d
  apart : ∀ p q, g.directionOf? p = some .input → g.directionOf? q = some .input → f p = f q → p = q
  placed : ∀ part ∈ parts, ∃ T, g.kind? part.node = some (.timeline T)
  moved : ∀ p, f p ≠ p → ∃ spot ∈ parts.flatMap Part.spots, spot.Holds g p
  away : ∀ p, f p ≠ p → g'.OffTimeline (f p)
  joined : ∀ a b, joins a b → ∃ T c call, g.nodes.size ≤ call.index ∧ IsComponent g' T a ∧
    g'.kind? call = some (.callFunction (.external c timelineComponentClass false)) ∧
    g'.PinAt call .input PinName.self b
  met : ∀ part ∈ parts, part.Met g g' f

variable {g g' g'' : Graph} {f f' : PinId → PinId} {joins joins' : PinId → PinId → Prop}
  {part : Part} {parts parts' : List Part} {p q : PinId}

theorem IsComponent.grows {T : String} (h : IsComponent g T p) (hgrows : Grows g g') :
    IsComponent g' T p := by
  obtain ⟨getter, hkind, hp⟩ := h
  exact ⟨getter, hgrows.kind? hkind, hgrows.pinAt hp⟩

theorem IsComponent.offTimeline {T : String} (h : IsComponent g T p) : g.OffTimeline p := by
  obtain ⟨getter, hkind, hp⟩ := h
  exact ⟨getter, _, _, _, hkind, fun _ ↦ NodeKind.noConfusion, hp⟩

theorem Calls.offTimeline {T c : String} {call : NodeId} (h : Calls g T c call) {d : Direction}
    {name : String} (hp : g.PinAt call d name p) : g.OffTimeline p :=
  ⟨call, _, d, name, h.kind?, fun _ ↦ NodeKind.noConfusion, hp⟩

namespace Stage

/-- Where nothing is wired there is nothing to do. -/
theorem skip (hg : g.Playable)
    (hplaced : ∀ part ∈ parts, ∃ T, g.kind? part.node = some (.timeline T))
    (hmet : ∀ part ∈ parts, part.Met g g id) :
    Stage parts id (fun _ _ ↦ False) g g where
  toEvolves := .refl hg
  directed _ _ := id
  apart _ _ _ _ := id
  placed := hplaced
  moved _ hp := absurd rfl hp
  away _ hp := absurd rfl hp
  joined _ _ := False.elim
  met := hmet

section Reading

variable (h : Stage parts f joins g g')
include h

theorem onTimeline_of_moved (hp : f p ≠ p) : g.OnTimeline p := by
  obtain ⟨spot, hspot, hholds⟩ := h.moved p hp
  obtain ⟨part, hpart, hmem⟩ := List.mem_flatMap.1 hspot
  obtain ⟨T, hkind⟩ := h.placed part hpart
  exact ⟨spot.node, T, _, _, Part.node_of_mem_spots hmem ▸ hkind, hholds⟩

theorem fixes (hp : g.OffTimeline p) : f p = p := by
  by_contra hne
  exact hp.not_onTimeline (h.onTimeline_of_moved hne)

/-- Pins of other parts keep their links. -/
theorem fixes_of_notMem {spot : Spot} (hspot : spot ∉ parts.flatMap Part.spots)
    (hp : spot.Holds g p) : f p = p := by
  by_contra hne
  obtain ⟨spot', hmem, hholds⟩ := h.moved p hne
  exact hspot (hp.unique hholds ▸ hmem)

/-- The new links are made away from timelines. -/
theorem joined_offTimeline (hjoin : joins p q) : g'.OffTimeline p ∧ g'.OffTimeline q := by
  obtain ⟨T, c, call, -, hvalue, hkind, hself⟩ := h.joined p q hjoin
  exact ⟨hvalue.offTimeline, call, _, _, _, hkind, fun _ ↦ NodeKind.noConfusion, hself⟩

/-- What is still linked to a timeline was linked to it before. -/
theorem of_mem_linksOf (hp : g'.OnTimeline p) (hq : q ∈ g'.linksOf p) :
    f p = p ∧ ∃ b ∈ g.linksOf p, f b = q := by
  rcases (h.relinks p q).1 hq with ⟨a, b, hab, rfl, rfl⟩ | hjoin | hjoin
  · obtain heq : f a = a := by
      by_contra hne
      exact (h.away a hne).not_onTimeline hp
    rw [heq]
    exact ⟨heq, b, hab, rfl⟩
  · exact absurd hp (h.joined_offTimeline hjoin).1.not_onTimeline
  · exact absurd hp (h.joined_offTimeline hjoin).2.not_onTimeline

/-- A pin that its links have left has none, for what is left at a timeline has not moved. -/
theorem linksOf_eq_nil (hp : g'.OnTimeline p) (hleft : g.linksOf p ≠ [] → g'.OffTimeline (f p)) :
    g'.linksOf p = [] := by
  by_contra hlinks
  obtain ⟨q, hq⟩ := List.exists_mem_of_ne_nil _ hlinks
  obtain ⟨hfix, b, hb, -⟩ := h.of_mem_linksOf hp hq
  have hoff := hleft (List.ne_nil_of_mem hb)
  rw [hfix] at hoff
  exact hoff.not_onTimeline hp

theorem linksOf_ne_nil_iff (hp : g'.OnTimeline p) (hfix : f p = p) :
    g'.linksOf p ≠ [] ↔ g.linksOf p ≠ [] := by
  constructor
  · intro hlinks
    obtain ⟨q, hq⟩ := List.exists_mem_of_ne_nil _ hlinks
    obtain ⟨-, b, hb, -⟩ := h.of_mem_linksOf hp hq
    exact List.ne_nil_of_mem hb
  · intro hlinks
    obtain ⟨b, hb⟩ := List.exists_mem_of_ne_nil _ hlinks
    exact List.ne_nil_of_mem ((h.relinks p (f b)).2 (.inl ⟨p, b, hb, hfix, rfl⟩))

end Reading

/-! ### One after the other -/

/-- Calls are left alone. -/
theorem calls {T c : String} {call : NodeId} (h : Stage parts f joins g g')
    (hcall : Calls g T c call) : Calls g' T c call := by
  obtain ⟨value, self, hvalue, hself, hlink⟩ := hcall.component
  refine ⟨h.grows.kind? hcall.kind?, value, self, hvalue.grows h.grows, h.grows.pinAt hself, ?_⟩
  refine (h.relinks self value).2 (.inl ⟨self, value, hlink, ?_, ?_⟩)
  · exact h.fixes (hcall.offTimeline hself)
  · exact h.fixes hvalue.offTimeline

/-- What has been expanded stays so. -/
theorem later (h : Stage parts f joins g g') (h' : Stage parts' f' joins' g' g'')
    (hother : ∀ spot ∈ part.spots, spot ∉ parts'.flatMap Part.spots)
    (hmet : part.Met g g' f) : part.Met g g'' (f' ∘ f) := by
  cases part with
  | control n T c =>
    refine ⟨fun hwired ↦ ?_, fun hwired r hr q hq ↦ ?_⟩
    · obtain ⟨call, hcall, hroutes⟩ := hmet.1 hwired
      refine ⟨call, h'.calls hcall, fun r hr q hq ↦ ?_⟩
      obtain ⟨hpin, hdefaults⟩ := hroutes r hr q hq
      rw [Function.comp_apply, h'.fixes (hcall.offTimeline hpin)]
      exact ⟨h'.grows.pinAt hpin, (h'.grows.defaults _ hpin.lt_size).trans hdefaults⟩
    · rw [Function.comp_apply, hmet.2 hwired r hr q hq]
      exact h'.fixes_of_notMem (hother _ (List.mem_map_of_mem hr)) (h.grows.pinAt hq)
  | track n pin function =>
    obtain ⟨event, e, hkind, hfunction, hthen⟩ := hmet
    refine ⟨event, e, h'.grows.kind? hkind, hfunction, fun p hp ↦ ?_⟩
    have hpin := hthen p hp
    rw [Function.comp_apply, h'.fixes ⟨event, _, _, _, hkind, fun _ ↦ NodeKind.noConfusion, hpin⟩]
    exact h'.grows.pinAt hpin

/-- What is expanded next was there from the beginning. -/
theorem earlier (hg : g.Playable) (h : Stage parts f joins g g')
    (hplaced : ∃ T, g'.kind? part.node = some (.timeline T))
    (hother : ∀ spot ∈ part.spots, spot ∉ parts.flatMap Part.spots)
    (hmet : part.Met g' g'' f') : part.Met g g'' (f' ∘ f) := by
  obtain ⟨T', hkind⟩ := hplaced
  have hiff (d : Direction) (name : String) (p : PinId) :
      g'.PinAt part.node d name p ↔ g.PinAt part.node d name p :=
    h.grows.pinAt_iff hg.wellFormed h.playable.wellFormed (h.grows.timelines _ _ hkind)
  cases part with
  | control n T c =>
    have hfix {r : String × String} (hr : r ∈ routes c) {p : PinId} (hp : g.PinAt n .input r.1 p) :
        f p = p :=
      h.fixes_of_notMem (hother ⟨n, .input, r.1⟩ (List.mem_map_of_mem hr)) hp
    have hwired : Wired g' n c ↔ Wired g n c := by
      refine exists_congr fun p ↦ (and_congr_left' (hiff .input c p)).trans ?_
      refine and_congr_right fun hp ↦ ?_
      exact h.linksOf_ne_nil_iff ⟨n, T', _, _, hkind, h.grows.pinAt hp⟩
        (hfix List.mem_cons_self hp)
    refine ⟨fun hold ↦ ?_, fun hold r hr q hq ↦ ?_⟩
    · obtain ⟨call, hcall, hroutes⟩ := hmet.1 (hwired.2 hold)
      refine ⟨call, hcall, fun r hr q hq ↦ ?_⟩
      obtain ⟨hpin, hdefaults⟩ := hroutes r hr q (h.grows.pinAt hq)
      rw [Function.comp_apply, hfix hr hq]
      exact ⟨hpin, hdefaults.trans (h.grows.defaults q hq.lt_size)⟩
    · rw [Function.comp_apply, hfix hr hq]
      exact hmet.2 (mt hwired.1 hold) r hr q (h.grows.pinAt hq)
  | track n pin function =>
    obtain ⟨event, e, hevent, hfunction, hthen⟩ := hmet
    refine ⟨event, e, hevent, hfunction, fun p hp ↦ ?_⟩
    rw [Function.comp_apply, h.fixes_of_notMem (hother ⟨n, .output, pin⟩ List.mem_cons_self) hp]
    exact hthen p (h.grows.pinAt hp)

/-- Stages that move different pins can be put together. -/
theorem append (hg : g.Playable) (h : Stage parts f joins g g') (h' : Stage parts' f' joins' g' g'')
    (hdisjoint : List.Disjoint (parts.flatMap Part.spots) (parts'.flatMap Part.spots)) :
    Stage (parts ++ parts') (f' ∘ f) (fun p q ↦ joins p q ∨ joins' p q) g g'' := by
  have hplaced (part : Part) (hpart : part ∈ parts') :
      ∃ T, g.kind? part.node = some (.timeline T) :=
    (h'.placed part hpart).imp fun T ↦ h.grows.timeline?
  refine ⟨⟨h'.playable, h.grows.trans h'.grows, ?_⟩, fun p d hp ↦ ?_, fun p q hp hq heq ↦ ?_,
    fun part hpart ↦ ?_, fun p hp ↦ ?_, fun p hp ↦ ?_, ?_, fun part hpart ↦ ?_⟩
  · refine h.relinks.trans h'.relinks fun p q hjoin ↦ ?_
    exact ⟨h'.fixes (h.joined_offTimeline hjoin).1, h'.fixes (h.joined_offTimeline hjoin).2⟩
  · exact h'.directed (f p) d (h.directed p d hp)
  · exact h.apart p q hp hq (h'.apart _ _ (h.directed p _ hp) (h.directed q _ hq) heq)
  · exact (List.mem_append.1 hpart).elim (h.placed part) (hplaced part)
  · rw [List.flatMap_append]
    by_cases hfix : f p = p
    · rw [Function.comp_apply, hfix] at hp
      obtain ⟨spot, hspot, hholds⟩ := h'.moved p hp
      obtain ⟨part, hpart, hmem⟩ := List.mem_flatMap.1 hspot
      obtain ⟨T, hkind⟩ := hplaced part hpart
      refine ⟨spot, List.mem_append_right _ hspot, ?_⟩
      refine (h.grows.pinAt_iff hg.wellFormed h.playable.wellFormed ?_).1 hholds
      rw [Part.node_of_mem_spots hmem]
      exact lt_size_of_kind? hkind
    · obtain ⟨spot, hspot, hholds⟩ := h.moved p hfix
      exact ⟨spot, List.mem_append_left _ hspot, hholds⟩
  · by_cases hfix : f p = p
    · rw [Function.comp_apply, hfix] at hp ⊢
      exact h'.away p hp
    · rw [Function.comp_apply, h'.fixes (h.away p hfix)]
      exact (h.away p hfix).grows h'.grows
  · rintro a b (hjoin | hjoin)
    · obtain ⟨T, c, call, hnew, hvalue, hkind, hself⟩ := h.joined a b hjoin
      exact ⟨T, c, call, hnew, hvalue.grows h'.grows, h'.grows.kind? hkind, h'.grows.pinAt hself⟩
    · obtain ⟨T, c, call, hnew, hrest⟩ := h'.joined a b hjoin
      exact ⟨T, c, call, h.grows.size_nodes.trans hnew, hrest⟩
  · rcases List.mem_append.1 hpart with hpart | hpart
    · refine h.later h' (fun spot hspot hmem ↦ ?_) (h.met part hpart)
      exact hdisjoint (List.mem_flatMap.2 ⟨part, hpart, hspot⟩) hmem
    · refine h.earlier hg (h'.placed part hpart) (fun spot hspot hmem ↦ ?_) (h'.met part hpart)
      exact hdisjoint hmem (List.mem_flatMap.2 ⟨part, hpart, hspot⟩)

end Stage

/-- Steps that are stages make a stage together if each of them moves pins of its own. -/
theorem exists_stage_foldl {σ α : Type} (graphOf : σ → Graph) (step : σ → α → σ)
    (partsOf : α → List Part) (pre : List α) {I : List α → σ → Prop} {l : List α}
    (hstep : ∀ pre s, ∀ a ∈ l, (graphOf s).Playable → I pre s → I (pre ++ [a]) (step s a) ∧
      ∃ f joins, Stage (partsOf a) f joins (graphOf s) (graphOf (step s a)))
    (hnodup : ((l.flatMap partsOf).flatMap Part.spots).Nodup) {s : σ}
    (hs : (graphOf s).Playable) (hI : I pre s) : I (pre ++ l) (l.foldl step s) ∧
      ∃ f joins, Stage (l.flatMap partsOf) f joins (graphOf s) (graphOf (l.foldl step s)) := by
  induction l generalizing pre s with
  | nil =>
    rw [List.append_nil]
    exact ⟨hI, id, _, .skip hs (fun _ h ↦ nomatch h) fun _ h ↦ nomatch h⟩
  | cons a l ih =>
    rw [List.flatMap_cons, List.flatMap_append, List.nodup_append'] at hnodup
    obtain ⟨hI₁, f, joins, hfirst⟩ := hstep pre s a List.mem_cons_self hs hI
    obtain ⟨hI₂, f', joins', hrest⟩ := ih (pre ++ [a])
      (fun pre s b hb ↦ hstep pre s b (List.mem_cons_of_mem a hb)) hnodup.2.1 hfirst.playable hI₁
    rw [List.append_assoc] at hI₂
    exact ⟨hI₂, _, _, hfirst.append hs hrest hnodup.2.2⟩

end VisualScript.Timelines
