import VisualScript.Proofs.Timelines.Parts

/-!
# Expanding timelines

Timelines are expanded one node after the other.  Every node that names a template loses the links
of its controls to calls on the component of the timeline and those of its tracks to events, while
all other links stay as they are.  Expanding what has been expanded changes nothing.
-/

namespace VisualScript

namespace Timelines

open VisualScript.Graph

variable {g g' : Graph} {n : NodeId} {template : TimelineTemplate}
  {templates : List TimelineTemplate}

/-! ## Nodes -/

/-- The tracks can be told apart from each other and from the other outputs. -/
structure Suited (template : TimelineTemplate) : Prop where
  nodup : template.eventTracks.Nodup
  update : PinName.update ∉ template.eventTracks
  finished : PinName.finished ∉ template.eventTracks

/-- What is expanded of a node. -/
def nodeParts (template : TimelineTemplate) (n : NodeId) : List Part :=
  NodeKind.timelineControls.map (.control n template.name) ++
    (tracks template).map fun track ↦ .track n track.1 track.2

theorem Suited.nodup_tracks (h : Suited template) : ((tracks template).map Prod.fst).Nodup := by
  have hnames : (tracks template).map Prod.fst =
      template.eventTracks ++ [PinName.update, PinName.finished] := by
    rw [tracks, List.map_append, List.map_map]
    exact congrArg (· ++ _) (List.map_id _)
  rw [hnames, List.nodup_append']
  refine ⟨h.nodup, by decide, List.disjoint_right.2 fun name hname ↦ ?_⟩
  simp only [List.mem_cons, List.not_mem_nil, or_false] at hname
  rcases hname with rfl | rfl
  · exact h.update
  · exact h.finished

theorem spots_controls (T : String) (n : NodeId) :
    (NodeKind.timelineControls.map (Part.control n T)).flatMap Part.spots =
      (NodeKind.timelineControls ++ [PinName.newTime]).map fun name ↦ ⟨n, .input, name⟩ :=
  rfl

theorem spots_tracks (l : List (String × String)) (n : NodeId) :
    (l.map fun track ↦ Part.track n track.1 track.2).flatMap Part.spots =
      (l.map Prod.fst).map fun name ↦ ⟨n, .output, name⟩ := by
  rw [List.flatMap_map, List.map_map, List.map_eq_flatMap]
  rfl

theorem injective_spot (n : NodeId) (d : Direction) :
    Function.Injective fun name ↦ (⟨n, d, name⟩ : Spot) := fun _ _ heq ↦ congrArg Spot.name heq

theorem nodup_spots_controls (T : String) (n : NodeId) :
    ((NodeKind.timelineControls.map (Part.control n T)).flatMap Part.spots).Nodup :=
  List.Nodup.map (injective_spot n .input)
    (by decide : (NodeKind.timelineControls ++ [PinName.newTime]).Nodup)

theorem Suited.nodup_spots_tracks (h : Suited template) (n : NodeId) :
    (((tracks template).map fun track ↦ Part.track n track.1 track.2).flatMap
      Part.spots).Nodup := by
  rw [spots_tracks]
  exact h.nodup_tracks.map (injective_spot n .output)

/-- Controls are inputs and tracks are outputs. -/
theorem disjoint_spots (template : TimelineTemplate) (n : NodeId) :
    List.Disjoint
      ((NodeKind.timelineControls.map (Part.control n template.name)).flatMap Part.spots)
      (((tracks template).map fun track ↦ Part.track n track.1 track.2).flatMap Part.spots) := by
  rw [spots_controls, spots_tracks]
  intro spot hinput houtput
  obtain ⟨_, -, rfl⟩ := List.mem_map.1 hinput
  obtain ⟨_, -, heq⟩ := List.mem_map.1 houtput
  cases congrArg Spot.direction heq

theorem Suited.nodup_spots (h : Suited template) (n : NodeId) :
    ((nodeParts template n).flatMap Part.spots).Nodup := by
  rw [nodeParts, List.flatMap_append, List.nodup_append']
  exact ⟨nodup_spots_controls _ n, h.nodup_spots_tracks n, disjoint_spots template n⟩

theorem flatMap_zipIdx {α : Type} (l : List α) (f : α → Part) :
    (l.zipIdx.flatMap fun x ↦ [f x.1]) = l.map f := by
  have hfst : l.zipIdx.map (f ∘ Prod.fst) = l.map f := by
    rw [← List.map_map, List.zipIdx_map_fst]
  rw [← hfst, List.map_eq_flatMap]
  rfl

theorem exists_stage_controls {s : State} (hs : s.graph.Playable)
    (hn : s.graph.kind? n = some (.timeline template.name)) (hgetter : s.getter = none)
    (position : Position) :
    ∃ f joins, Stage (NodeKind.timelineControls.map (.control n template.name)) f joins s.graph
      (NodeKind.timelineControls.zipIdx.foldl (expandControl n template position) s).graph := by
  rw [← flatMap_zipIdx]
  -- the node stays a timeline, and the node that reads the component goes on doing so
  refine (exists_stage_foldl State.graph _ _ [] (I := fun _ s ↦
    s.graph.kind? n = some (.timeline template.name) ∧
      ∀ id, s.getter = some id → Reads s.graph template.name id) ?_ ?_ hs ⟨hn, ?_⟩).2
  · rintro _ s control - hs ⟨hn, hreads⟩
    obtain ⟨hreads', f, joins, hstage⟩ := exists_stage_expandControl hs hn hreads position control
    exact ⟨⟨hstage.grows.kind? hn, hreads'⟩, f, joins, hstage⟩
  · rw [flatMap_zipIdx]
    exact nodup_spots_controls _ n
  · intro id hid
    rw [hgetter] at hid
    cases hid

theorem Suited.exists_stage_tracks {s : State} (h : Suited template) (hs : s.graph.Playable)
    {T : String} (hn : s.graph.kind? n = some (.timeline T)) (position : Position) :
    ∃ f joins, Stage ((tracks template).map fun track ↦ .track n track.1 track.2) f joins s.graph
      ((tracks template).zipIdx.foldl (expandTrack n position) s).graph := by
  rw [← flatMap_zipIdx]
  refine (exists_stage_foldl State.graph _ _ []
    (I := fun _ s ↦ s.graph.kind? n = some (.timeline T)) ?_ ?_ hs hn).2
  · intro _ s track _ hs hn
    obtain ⟨f, joins, hstage⟩ := exists_stage_expandTrack hs hn position track
    exact ⟨hstage.grows.kind? hn, f, joins, hstage⟩
  · rw [flatMap_zipIdx (tracks template) fun track ↦ .track n track.1 track.2]
    exact h.nodup_spots_tracks n

/-- Expanding a node is a stage. -/
theorem Suited.exists_stage_expandNode {s : State} (h : Suited template) (hs : s.graph.Playable)
    (hn : s.graph.kind? n = some (.timeline template.name)) :
    ∃ f joins, Stage (nodeParts template n) f joins s.graph (expandNode template n s).graph := by
  obtain ⟨f, joins, hcontrols⟩ := exists_stage_controls (s := { s with getter := none }) hs hn rfl
    (positionOf s.graph n)
  obtain ⟨f', joins', htracks⟩ := h.exists_stage_tracks hcontrols.playable
    (hcontrols.grows.kind? hn) (positionOf _ n)
  exact ⟨_, _, hcontrols.append hs htracks (disjoint_spots template n)⟩

/-! ## All nodes -/

/-- The template that a timeline node names. -/
def templateOf? (templates : List TimelineTemplate) (g : Graph) (n : NodeId) :
    Option TimelineTemplate :=
  match g.kind? n with
  | some (.timeline T) => templates.find? (·.name == T)
  | _ => none

theorem name_of_find? {T : String} (h : templates.find? (·.name == T) = some template) :
    template.name = T :=
  eq_of_beq (List.find?_some (p := fun template : TimelineTemplate ↦ template.name == T) h)

theorem templateOf?_eq_some : templateOf? templates g n = some template ↔
    g.kind? n = some (.timeline template.name) ∧
      templates.find? (·.name == template.name) = some template := by
  unfold templateOf?
  split
  · next T hkind =>
    constructor
    · intro hfind
      obtain rfl := name_of_find? hfind
      exact ⟨hkind, hfind⟩
    · rintro ⟨hname, hfind⟩
      cases hkind.symm.trans hname
      exact hfind
  · next hnone =>
    refine iff_of_false nofun ?_
    rintro ⟨hkind, -⟩
    exact hnone _ hkind

theorem templateOf?_congr (hkind : g'.kind? n = g.kind? n) :
    templateOf? templates g' n = templateOf? templates g n := by
  rw [templateOf?, templateOf?, hkind]

/-- What is expanded of a node that may have a template. -/
def partsAt (templates : List TimelineTemplate) (g : Graph) (n : NodeId) : List Part :=
  ((templateOf? templates g n).map (nodeParts · n)).getD []

theorem mem_partsAt {part : Part} : part ∈ partsAt templates g n ↔
    ∃ template, templateOf? templates g n = some template ∧ part ∈ nodeParts template n := by
  unfold partsAt
  cases templateOf? templates g n with
  | none => simp
  | some template => simp

theorem node_of_mem_nodeParts {part : Part} (h : part ∈ nodeParts template n) : part.node = n := by
  rcases List.mem_append.1 h with h | h
  · obtain ⟨c, -, rfl⟩ := List.mem_map.1 h
    rfl
  · obtain ⟨track, -, rfl⟩ := List.mem_map.1 h
    rfl

/-- The nodes that are expanded. -/
def isTimeline : NodeKind → Bool
  | .timeline _ => true
  | _ => false

theorem isTimeline_eq_true {kind : NodeKind} :
    isTimeline kind = true ↔ ∃ T, kind = .timeline T := by
  unfold isTimeline
  split
  · exact iff_of_true rfl ⟨_, rfl⟩
  · next hne => exact iff_of_false nofun fun ⟨T, hT⟩ ↦ hne T hT

theorem mem_timelines (hg : g.WellFormed) :
    n ∈ g.nodesWhere isTimeline ↔ ∃ T, g.kind? n = some (.timeline T) := by
  rw [hg.mem_nodesWhere]
  constructor
  · rintro ⟨kind, hkind, htimeline⟩
    obtain ⟨T, rfl⟩ := isTimeline_eq_true.1 htimeline
    exact ⟨T, hkind⟩
  · rintro ⟨T, hkind⟩
    exact ⟨_, hkind, rfl⟩

theorem nodup_spots_partsAt (hg : g.WellFormed) (h : ∀ template ∈ templates, Suited template) :
    (((g.nodesWhere isTimeline).flatMap (partsAt templates g)).flatMap Part.spots).Nodup := by
  have hnodes : (g.nodesWhere isTimeline).Nodup := by
    rw [hg.nodesWhere_eq]
    exact hg.nodup_order.filter _
  have hnode {n : NodeId} {spot : Spot}
      (hspot : spot ∈ (partsAt templates g n).flatMap Part.spots) : spot.node = n := by
    obtain ⟨part, hpart, hmem⟩ := List.mem_flatMap.1 hspot
    obtain ⟨template, -, hpart⟩ := mem_partsAt.1 hpart
    rw [Part.node_of_mem_spots hmem, node_of_mem_nodeParts hpart]
  rw [List.flatMap_assoc, List.nodup_flatMap]
  refine ⟨fun n _ ↦ ?_, hnodes.imp fun hne spot hspot hspot' ↦ hne ?_⟩
  · unfold partsAt
    cases htemplate : templateOf? templates g n with
    | none => exact List.nodup_nil
    | some template =>
      have hmem := List.mem_of_find?_eq_some (templateOf?_eq_some.1 htemplate).2
      exact (h template hmem).nodup_spots n
  · rw [← hnode hspot, hnode hspot']

/-- The next timeline node is expanded. -/
def expandNext (templates : List TimelineTemplate) (s : Bool × Graph × MessageLog) (n : NodeId) :
    Bool × Graph × MessageLog :=
  match s.2.1.kind? n with
  | some (.timeline name) => match templates.find? (·.name == name) with
    | none => (false, s.2.1, s.2.2.error
        s!"Timeline node @@ references a missing timeline template '{name}'" [s.2.1.nodeToken n])
    | some template =>
      let s' := expandNode template n { graph := s.2.1, log := s.2.2 }
      (s.1, s'.graph, s'.log)
  | _ => s

theorem expandTimelines_eq (g : Graph) (templates : List TimelineTemplate) (log : MessageLog) :
    expandTimelines g templates log =
      (g.nodesWhere isTimeline).foldl (expandNext templates) (true, g, log) :=
  rfl

/-- Expanding the next node is a stage, and the nodes that were there go on being so. -/
theorem exists_stage_expandNext (h : ∀ template ∈ templates, Suited template)
    {s : Bool × Graph × MessageLog} (hs : s.2.1.Playable) (hgrows : Grows g s.2.1)
    (hn : ∃ T, g.kind? n = some (.timeline T)) :
    (expandNext templates s n).1 = (s.1 && (templateOf? templates g n).isSome) ∧
      ∃ f joins, Stage (partsAt templates g n) f joins s.2.1 (expandNext templates s n).2.1 := by
  obtain ⟨T, hn⟩ := hn
  have hkind := hgrows.kind? hn
  unfold expandNext partsAt templateOf?
  rw [hkind, hn]
  dsimp only
  cases hfind : templates.find? (·.name == T) with
  | none =>
    refine ⟨(Bool.and_false _).symm, id, _, .skip hs (fun _ hpart ↦ ?_) fun _ hpart ↦ ?_⟩
    · cases hpart
    · cases hpart
  | some template =>
    obtain rfl := name_of_find? hfind
    refine ⟨(Bool.and_true _).symm, ?_⟩
    exact (h template (List.mem_of_find?_eq_some hfind)).exists_stage_expandNode
      (s := { graph := s.2.1, log := s.2.2 }) hs hkind

/-- Expanding all nodes is a stage, and the answer says whether all of them name a template. -/
theorem exists_stage_expandTimelines (hg : g.Playable) (h : ∀ template ∈ templates, Suited template)
    (log : MessageLog) :
    (expandTimelines g templates log).1 =
        (g.nodesWhere isTimeline).all (fun n ↦ (templateOf? templates g n).isSome) ∧
      ∃ f joins, Stage ((g.nodesWhere isTimeline).flatMap (partsAt templates g)) f joins g
        (expandTimelines g templates log).2.1 := by
  rw [expandTimelines_eq]
  have hfold := exists_stage_foldl (fun s : Bool × Graph × MessageLog ↦ s.2.1)
    (expandNext templates) (partsAt templates g) []
    (s := (true, g, log)) (I := fun pre s ↦ Grows g s.2.1 ∧
      s.1 = pre.all fun n ↦ (templateOf? templates g n).isSome) (l := g.nodesWhere isTimeline) ?_
    (nodup_spots_partsAt hg.wellFormed h) hg ⟨.refl g, rfl⟩
  · exact ⟨hfold.1.2, hfold.2⟩
  · rintro pre s n hn hs ⟨hgrows, hanswer⟩
    obtain ⟨hanswer', f, joins, hstage⟩ :=
      exists_stage_expandNext h hs hgrows ((mem_timelines hg.wellFormed).1 hn)
    refine ⟨⟨hgrows.trans hstage.grows, ?_⟩, f, joins, hstage⟩
    rw [hanswer', hanswer, List.all_append, List.all_cons, List.all_nil, Bool.and_true]

/-! ## Expanding again -/

/-- Nothing is left to expand. -/
structure Settled (templates : List TimelineTemplate) (g : Graph) : Prop where
  named : ∀ n T, g.kind? n = some (.timeline T) →
    ∃ template, templateOf? templates g n = some template
  controls : ∀ n template, templateOf? templates g n = some template →
    ∀ c ∈ NodeKind.timelineControls, ∀ p, g.PinAt n .input c p → g.linksOf p = []
  tracks : ∀ n template, templateOf? templates g n = some template →
    ∀ track ∈ tracks template, (∃ event e, g.kind? event = some (.event e) ∧ e.function = track.2) ∧
      ∀ p, g.PinAt n .output track.1 p → g.linksOf p = []

theorem expandControl_of_unlinked {s : State} (hs : s.graph.WellFormed) {c : String}
    (h : ∀ p, s.graph.PinAt n .input c p → s.graph.linksOf p = []) (position : Position)
    (row : Nat) :
    expandControl n template position s (c, row) = s := by
  unfold expandControl
  split
  · rfl
  · next p hfind =>
    rw [h p (hs.pinAt_of_findPin? hfind)]
    exact if_pos rfl

theorem expandTrack_of_unlinked {s : State} (hs : s.graph.WellFormed) {pin function : String}
    (hevent : ∃ event e, s.graph.kind? event = some (.event e) ∧ e.function = function)
    (h : ∀ p, s.graph.PinAt n .output pin p → s.graph.linksOf p = []) (position : Position)
    (row : Nat) : expandTrack n position s ((pin, function), row) = s := by
  obtain ⟨event, hfor⟩ : ∃ event, eventFor s n position function row = (event, s) := by
    obtain ⟨event, e, hkind, rfl⟩ := hevent
    unfold eventFor
    dsimp only
    split
    · next event' _ => exact ⟨event', rfl⟩
    · next hnone =>
      have hnil := List.head?_eq_none_iff.1 hnone
      exact absurd hnil (List.ne_nil_of_mem (hs.mem_nodesWhere.2 ⟨_, hkind, beq_self_eq_true _⟩))
  unfold expandTrack
  dsimp only
  rw [hfor]
  dsimp only
  split
  · next p t hp ht =>
    obtain ⟨ppin, hppin, hplace⟩ := hs.pinAt_of_findPin? hp
    obtain ⟨tpin, htpin, -, hout, -⟩ := hs.pinAt_of_findPin? ht
    have hlinks := h p ⟨ppin, hppin, hplace⟩
    rw [linksOf, hppin, Option.map_some, Option.getD_some] at hlinks
    rw [movePinLinks_unlinked hppin hlinks htpin hout]
  · rfl

/-- Expanding what has been expanded changes nothing. -/
theorem expandTimelines_of_settled (hg : g.WellFormed) (h : Settled templates g)
    (log : MessageLog) : expandTimelines g templates log = (true, g, log) := by
  rw [expandTimelines_eq]
  refine List.foldlRecOn (motive := fun s ↦ s = (true, g, log)) _ _ rfl ?_
  rintro _ rfl n hn
  obtain ⟨T, hkind⟩ := (mem_timelines hg).1 hn
  obtain ⟨template, htemplate⟩ := h.named n T hkind
  obtain ⟨hname, hfind⟩ := templateOf?_eq_some.1 htemplate
  have hcontrols (position : Position) : NodeKind.timelineControls.zipIdx.foldl
      (expandControl n template position) { graph := g, log } = { graph := g, log } := by
    refine List.foldlRecOn (motive := fun s : State ↦ s = { graph := g, log }) _ _ rfl ?_
    rintro _ rfl ⟨c, row⟩ hc
    exact expandControl_of_unlinked hg
      (h.controls n template htemplate c (List.fst_mem_of_mem_zipIdx hc)) position row
  have htracks (position : Position) : (tracks template).zipIdx.foldl (expandTrack n position)
      { graph := g, log } = { graph := g, log } := by
    refine List.foldlRecOn (motive := fun s : State ↦ s = { graph := g, log }) _ _ rfl ?_
    rintro _ rfl ⟨track, row⟩ htrack
    obtain ⟨hevent, hlinks⟩ :=
      h.tracks n template htemplate track (List.fst_mem_of_mem_zipIdx htrack)
    exact expandTrack_of_unlinked hg hevent hlinks position row
  have hnode : expandNode template n { graph := g, log } = { graph := g, log } := by
    unfold expandNode
    dsimp only
    rw [hcontrols, htracks]
  unfold expandNext
  rw [hname]
  dsimp only
  rw [hfind]
  dsimp only
  rw [hnode]

/-! ## What expanding does -/

/-- The timeline nodes of `g` have been expanded, where `f` says where the links of each pin have
gone and `joins` which links are new. -/
structure Unrolled (templates : List TimelineTemplate) (g g' : Graph) (f : PinId → PinId)
    (joins : PinId → PinId → Prop) : Prop where
  /-- Nodes and pins that were there stay, and their defaults are the same. -/
  grows : Grows g g'
  relinks : Relinks f joins g g'
  /-- New links go from a component to a new call. -/
  joined : ∀ a b, joins a b → ∃ T c call, g.nodes.size ≤ call.index ∧ IsComponent g' T a ∧
    g'.kind? call = some (.callFunction (.external c timelineComponentClass false)) ∧
    g'.PinAt call .input PinName.self b
  /-- Links that went to different inputs still do. -/
  apart : ∀ p q, g.directionOf? p = some .input → g.directionOf? q = some .input → f p = f q → p = q
  controls : ∀ n template, templateOf? templates g n = some template →
    ∀ c ∈ NodeKind.timelineControls, ∀ p, g.PinAt n .input c p → g.linksOf p ≠ [] →
      ∃ call, Calls g' template.name c call ∧ g'.PinAt call .input PinName.execute (f p) ∧
        (c = setNewTime → ∀ t, g.PinAt n .input PinName.newTime t →
          g'.PinAt call .input PinName.newTime (f t) ∧ g'.defaultsOf? (f t) = g.defaultsOf? t)
  events : ∀ n template, templateOf? templates g n = some template →
    ∀ track ∈ tracks template, ∀ p, g.PinAt n .output track.1 p →
      ∃ event e, g'.kind? event = some (.event e) ∧ e.function = track.2 ∧
        g'.PinAt event .output PinName.thenOut (f p)
  /-- No other links have moved. -/
  others : ∀ p, f p ≠ p → ∃ n template, templateOf? templates g n = some template ∧
    ((∃ c ∈ NodeKind.timelineControls, Wired g n c ∧
        (g.PinAt n .input c p ∨ c = setNewTime ∧ g.PinAt n .input PinName.newTime p)) ∨
      ∃ track ∈ tracks template, g.PinAt n .output track.1 p)
  settled : Settled templates g'

theorem mem_routes {c : String} {r : String × String} : r ∈ routes c ↔
    r = (c, PinName.execute) ∨ c = setNewTime ∧ r = (PinName.newTime, PinName.newTime) := by
  unfold routes
  split
  · next hc => simp [hc]
  · next hc => simp [hc]

section Stage

variable {f : PinId → PinId} {joins : PinId → PinId → Prop}
  (h : Stage ((g.nodesWhere isTimeline).flatMap (partsAt templates g)) f joins g g')
include h

theorem Stage.met_of_mem (hg : g.WellFormed) {part : Part}
    (htemplate : templateOf? templates g n = some template) (hpart : part ∈ nodeParts template n) :
    part.Met g g' f := by
  refine h.met part (List.mem_flatMap.2 ⟨n, ?_, mem_partsAt.2 ⟨template, htemplate, hpart⟩⟩)
  exact (mem_timelines hg).2 ⟨_, (templateOf?_eq_some.1 htemplate).1⟩

theorem Stage.met_control (hg : g.WellFormed) {c : String}
    (htemplate : templateOf? templates g n = some template) (hc : c ∈ NodeKind.timelineControls) :
    (Part.control n template.name c).Met g g' f :=
  h.met_of_mem hg htemplate (List.mem_append_left _ (List.mem_map_of_mem hc))

theorem Stage.met_track (hg : g.WellFormed) {track : String × String}
    (htemplate : templateOf? templates g n = some template) (htrack : track ∈ tracks template) :
    (Part.track n track.1 track.2).Met g g' f := by
  refine h.met_of_mem hg htemplate (List.mem_append_right _ ?_)
  exact List.mem_map_of_mem (f := fun track ↦ Part.track n track.1 track.2) htrack

theorem Stage.settled (hg : g.Playable) (hnamed : ∀ n T, g.kind? n = some (.timeline T) →
    ∃ template, templateOf? templates g n = some template) : Settled templates g' := by
  have hold {n : NodeId} {T : String} (hkind : g'.kind? n = some (.timeline T)) :
      templateOf? templates g' n = templateOf? templates g n :=
    templateOf?_congr (h.grows.kind?_eq (h.grows.timelines n T hkind))
  have hpin {n : NodeId} {T name : String} {d : Direction} {p : PinId}
      (hkind : g'.kind? n = some (.timeline T)) : g'.PinAt n d name p ↔ g.PinAt n d name p :=
    h.grows.pinAt_iff hg.wellFormed h.playable.wellFormed (h.grows.timelines n T hkind)
  refine ⟨fun n T hkind ↦ ?_, fun n template htemplate c hc p hp ↦ ?_,
    fun n template htemplate track htrack ↦ ?_⟩
  · rw [hold hkind]
    exact hnamed n T (h.grows.timeline? hkind)
  · have hkind := (templateOf?_eq_some.1 htemplate).1
    rw [hold hkind] at htemplate
    refine h.linksOf_eq_nil ⟨n, _, _, _, hkind, hp⟩ fun hlinks ↦ ?_
    have hp := (hpin hkind).1 hp
    obtain ⟨call, hcall, hroutes⟩ := (h.met_control hg.wellFormed htemplate hc).1 ⟨p, hp, hlinks⟩
    exact hcall.offTimeline (hroutes _ List.mem_cons_self p hp).1
  · have hkind := (templateOf?_eq_some.1 htemplate).1
    rw [hold hkind] at htemplate
    obtain ⟨event, e, hevent, hfunction, hthen⟩ := h.met_track hg.wellFormed htemplate htrack
    refine ⟨⟨event, e, hevent, hfunction⟩, fun p hp ↦ ?_⟩
    refine h.linksOf_eq_nil ⟨n, _, _, _, hkind, hp⟩ fun _ ↦ ?_
    exact ⟨event, _, _, _, hevent, fun _ ↦ NodeKind.noConfusion, hthen p ((hpin hkind).1 hp)⟩

theorem Stage.unrolled (hg : g.Playable) (hnamed : ∀ n T, g.kind? n = some (.timeline T) →
    ∃ template, templateOf? templates g n = some template) : Unrolled templates g g' f joins where
  grows := h.grows
  relinks := h.relinks
  joined := h.joined
  apart := h.apart
  controls n template htemplate c hc p hp hlinks := by
    obtain ⟨call, hcall, hroutes⟩ := (h.met_control hg.wellFormed htemplate hc).1 ⟨p, hp, hlinks⟩
    refine ⟨call, hcall, (hroutes _ List.mem_cons_self p hp).1, fun hset t ht ↦ ?_⟩
    exact hroutes _ (mem_routes.2 (.inr ⟨hset, rfl⟩)) t ht
  events n template htemplate track htrack p hp := by
    obtain ⟨event, e, hevent, hfunction, hthen⟩ := h.met_track hg.wellFormed htemplate htrack
    exact ⟨event, e, hevent, hfunction, hthen p hp⟩
  others p hp := by
    obtain ⟨spot, hspot, hholds⟩ := h.moved p hp
    obtain ⟨part, hpart, hmem⟩ := List.mem_flatMap.1 hspot
    obtain ⟨n, -, hpart⟩ := List.mem_flatMap.1 hpart
    obtain ⟨template, htemplate, hpart⟩ := mem_partsAt.1 hpart
    refine ⟨n, template, htemplate, ?_⟩
    rcases List.mem_append.1 hpart with hpart | hpart
    · obtain ⟨c, hc, rfl⟩ := List.mem_map.1 hpart
      obtain ⟨r, hr, rfl⟩ := List.mem_map.1 hmem
      have hwired : Wired g n c := by
        by_contra hnot
        exact hp ((h.met_control hg.wellFormed htemplate hc).2 hnot r hr p hholds)
      refine .inl ⟨c, hc, hwired, ?_⟩
      rcases mem_routes.1 hr with rfl | ⟨hset, rfl⟩
      · exact .inl hholds
      · exact .inr ⟨hset, hholds⟩
    · obtain ⟨track, htrack, rfl⟩ := List.mem_map.1 hpart
      rw [List.mem_singleton.1 hmem] at hholds
      exact .inr ⟨track, htrack, hholds⟩
  settled := h.settled hg hnamed

end Stage

end Timelines

open Timelines

/-- Expanding timelines succeeds if all of them name a template, and then it moves the links of
their controls and tracks to calls and events and leaves nothing to expand. -/
theorem unrolled_expandTimelines {g : Graph} (hg : g.Playable) {templates : List TimelineTemplate}
    (htemplates : ∀ template ∈ templates, Suited template) (log : MessageLog) :
    ((expandTimelines g templates log).1 = true ↔
      ∀ n T, g.kind? n = some (.timeline T) → ∃ template ∈ templates, template.name = T) ∧
    ((expandTimelines g templates log).1 = true →
      (∃ f joins, Unrolled templates g (expandTimelines g templates log).2.1 f joins) ∧
      ∀ log', expandTimelines (expandTimelines g templates log).2.1 templates log' =
        (true, (expandTimelines g templates log).2.1, log')) := by
  obtain ⟨hanswer, f, joins, hstage⟩ := exists_stage_expandTimelines hg htemplates log
  have hnamed : (expandTimelines g templates log).1 = true ↔ ∀ n T,
      g.kind? n = some (.timeline T) → ∃ template, templateOf? templates g n = some template := by
    rw [hanswer, List.all_eq_true]
    constructor
    · intro h n T hkind
      exact Option.isSome_iff_exists.1 (h n ((mem_timelines hg.wellFormed).2 ⟨T, hkind⟩))
    · intro h n hn
      obtain ⟨T, hkind⟩ := (mem_timelines hg.wellFormed).1 hn
      exact Option.isSome_iff_exists.2 (h n T hkind)
  refine ⟨hnamed.trans ?_, fun htrue ↦ ?_⟩
  · refine forall_congr' fun n ↦ forall_congr' fun T ↦ forall_congr' fun hkind ↦ ?_
    rw [templateOf?, hkind]
    constructor
    · rintro ⟨template, hfind⟩
      exact ⟨template, List.mem_of_find?_eq_some hfind, name_of_find? hfind⟩
    · rintro ⟨template, hmem, rfl⟩
      refine Option.isSome_iff_exists.1 (List.find?_isSome.2 ⟨template, hmem, ?_⟩)
      exact beq_self_eq_true template.name
  · have hunrolled := hstage.unrolled hg (hnamed.1 htrue)
    exact ⟨⟨f, joins, hunrolled⟩,
      expandTimelines_of_settled hstage.playable.wellFormed hunrolled.settled⟩

/-- An event plays a timeline, which sets the time of another node of the timeline at its end. -/
def Timelines.fading : Graph :=
  let (begin, g) := (Graph.empty "EventGraph").spawn (.event { function := "Begin" })
  let (first, g) := g.spawn (.timeline "Fade")
  let (second, g) := g.spawn (.timeline "Fade")
  let g := (g.allocPin first .output { name := "Hit", ty := .exec }).2
  let g := (g.connect begin PinName.thenOut first "Play").toOption.getD g
  (g.connect first PinName.finished second setNewTime).toOption.getD g

theorem unrolled_expandTimelines_fading :
    let template : TimelineTemplate := { name := "Fade", eventTracks := ["Hit"] }
    let g := (expandTimelines fading [template] {}).2.1
    (∃ f joins, Unrolled [template] fading g f joins) ∧
      expandTimelines g [template] {} = (true, g, {}) := by
  have hsuited : ∀ template ∈ [({ name := "Fade", eventTracks := ["Hit"] } : TimelineTemplate)],
      Suited template := by
    intro template htemplate
    obtain rfl := List.mem_singleton.1 htemplate
    exact ⟨by decide, by decide, by decide⟩
  obtain ⟨-, hunrolled⟩ := unrolled_expandTimelines (g := fading) (by decide +kernel) hsuited {}
  obtain ⟨hexists, hagain⟩ := hunrolled (by decide +kernel)
  exact ⟨hexists, hagain {}⟩

end VisualScript
