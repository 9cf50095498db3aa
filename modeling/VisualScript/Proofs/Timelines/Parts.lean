import VisualScript.Proofs.Timelines.Stages

/-!
# Expanding the parts of a timeline node

Expanding a control that something is linked to, or an output that starts a function, is a stage:
none of the edits that it is made of fails.
-/

namespace VisualScript.Timelines

open VisualScript.Graph

variable {g g' g'' : Graph} {n getter call : NodeId} {T c x y : String} {p t value target : PinId}
  {f : PinId → PinId} {template : TimelineTemplate}

/-! ## The component -/

/-- The node reads the component of the timeline `T`. -/
def Reads (g : Graph) (T : String) (getter : NodeId) : Prop :=
  g.kind? getter = some (.variableGet (component T)) ∧ ∃ p, g.PinAt getter .output T p

theorem Reads.grows (h : Reads g T getter) (hgrows : Grows g g') :
    Reads g' T getter :=
  ⟨hgrows.kind? h.1, h.2.imp fun _ ↦ hgrows.pinAt⟩

theorem exists_getterFor {s : State} (hs : s.graph.Playable)
    (hgetter : ∀ id, s.getter = some id → Reads s.graph template.name id) (position : Position) :
    ∃ getter s', getterFor s template position = (getter, s') ∧ s'.getter = some getter ∧
      Reads s'.graph template.name getter ∧ Evolves id (fun _ _ ↦ False) s.graph s'.graph := by
  unfold getterFor
  cases hs' : s.getter with
  | some id => exact ⟨id, s, rfl, hs', hgetter id hs', .refl hs⟩
  | none =>
    have hspawned := (spawned_spawnIntermediate s.graph (.variableGet (component template.name)))
      |>.setPosition (position.x - SpawnGrid.nodeWidth) position.y
    refine ⟨_, _, rfl, rfl, ⟨hspawned.kind?, ?_⟩,
      (Evolves.refl hs).spawn (fun _ ↦ NodeKind.noConfusion) _ _⟩
    exact hspawned.exists_pinAt (.output, { name := template.name, ty := _ })
      List.mem_cons_self

/-! ## Calls -/

/-- A new call is linked to the component, and links at inputs of the timeline node go to it. -/
structure Routed (n getter call : NodeId) (T c : String) (value target : PinId)
    (rs : List (String × String)) (f : PinId → PinId) (g g' : Graph) : Prop
    extends Evolves f (fun a b ↦ a = value ∧ b = target) g g' where
  new : g.nodes.size ≤ call.index
  kind? : g'.kind? call = some (.callFunction (.external c timelineComponentClass false))
  component : g'.kind? getter = some (.variableGet (Timelines.component T)) ∧
    g'.PinAt getter .output T value
  target : g'.PinAt call .input PinName.self target
  goes : ∀ r ∈ rs, ∀ q, g.PinAt n .input r.1 q →
    g'.PinAt call .input r.2 (f q) ∧ g'.defaultsOf? (f q) = g.defaultsOf? q
  moved : ∀ q, f q ≠ q → ∃ r ∈ rs, g.PinAt n .input r.1 q

namespace Routed

variable {rs : List (String × String)}

section Reading

variable (h : Routed n getter call T c value target rs f g g')
include h

theorem offTimeline {d : Direction} (hp : g'.PinAt call d x p) : g'.OffTimeline p :=
  ⟨call, _, d, x, h.kind?, fun _ ↦ NodeKind.noConfusion, hp⟩

theorem isComponent : IsComponent g' T value := ⟨getter, h.component⟩

theorem joins_ne (hp : g'.OnTimeline p) (a b : PinId) (hjoin : a = value ∧ b = target) :
    a ≠ p ∧ b ≠ p := by
  obtain ⟨rfl, rfl⟩ := hjoin
  constructor
  · rintro rfl
    exact h.isComponent.offTimeline.not_onTimeline hp
  · rintro rfl
    exact (h.offTimeline h.target).not_onTimeline hp

/-- No pin of the graph that was there belongs to the call. -/
theorem not_pinAt {m : NodeId} {d d' : Direction} (hg : g.WellFormed) (hp : g.PinAt m d x p) :
    ¬g'.PinAt call d' y p := by
  intro hcall
  obtain rfl := ((h.grows.pinAt hp).unique hcall).1
  exact absurd (hg.lt_size_of_ownerOf? hp.ownerOf?) (Nat.not_lt.2 h.new)

theorem pins_size_le (hg : g.WellFormed) {d : Direction} (hp : g'.PinAt call d x p) :
    g.pins.size ≤ p.index := by
  by_contra hlt
  have hold : g.PinAt call d x p := hp.congr (h.grows.faces p (Nat.not_le.1 hlt)).symm
  exact h.not_pinAt hg hold hp

/-- Inputs without a pin have nothing to move. -/
theorem skip (hnone : ∀ p, ¬g.PinAt n .input x p) :
    Routed n getter call T c value target (rs ++ [(x, y)]) f g g' := by
  refine { h with goes := fun r hr q hq ↦ ?_, moved := fun q hq ↦ ?_ }
  · rcases List.mem_append.1 hr with hr | hr
    · exact h.goes r hr q hq
    · obtain rfl := List.mem_singleton.1 hr
      exact absurd hq (hnone q)
  · obtain ⟨r, hr, hpin⟩ := h.moved q hq
    exact ⟨r, List.mem_append_left _ hr, hpin⟩

theorem addPin {desc : PinDescription} (hadd : g'.addPin call .input desc = .ok (p, g'')) :
    Routed n getter call T c value target rs f g g'' := by
  have hadds := addsPin_of_addPin hadd
  have hpin {q : PinId} {d : Direction} {m : NodeId} {x : String} (hq : g'.PinAt m d x q) :
      g''.pin? q = g'.pin? q := by
    rw [hadds.pin?, if_neg]
    rintro rfl
    obtain ⟨pin, hpin, -⟩ := hq
    rw [hadds.fresh] at hpin
    cases hpin
  have hkeeps {q : PinId} {d : Direction} {m : NodeId} {x : String} (hq : g'.PinAt m d x q) :
      g''.PinAt m d x q := hq.congr (by rw [hpin hq])
  refine ⟨h.toEvolves.addPin h.new h.kind? (fun _ ↦ NodeKind.noConfusion)
    (fun _ ↦ NodeKind.noConfusion) hadd, h.new, ?_, ?_, hkeeps h.target, ?_,
    h.moved⟩
  · rw [hadds.kind?, h.kind?]
  · obtain ⟨hkind, hvalue⟩ := h.component
    exact ⟨(hadds.kind? getter).trans hkind, hkeeps hvalue⟩
  · intro r hr q hq
    obtain ⟨hcall, hdefaults⟩ := h.goes r hr q hq
    refine ⟨hkeeps hcall, ?_⟩
    rw [defaultsOf?, hpin hcall, ← defaultsOf?, hdefaults]

end Reading

/-- One more input is moved to the call. -/
theorem exists_move (hg : g.Playable) (hn : g.kind? n = some (.timeline T))
    (h : Routed n getter call T c value target rs f g g') (hp : g.PinAt n .input x p)
    (hx : x ∉ rs.map Prod.fst) (ht : g'.PinAt call .input y t) (hy : y ∉ rs.map Prod.snd) :
    ∃ g'' f', g'.movePinLinks p t = ⟨g'', none⟩ ∧
      Routed n getter call T c value target (rs ++ [(x, y)]) f' g g'' := by
  have hp' := h.grows.pinAt hp
  have hfix : f p = p := by
    by_contra hne
    obtain ⟨r, hr, hq⟩ := h.moved p hne
    exact hx ((hq.unique hp).2.2 ▸ List.mem_map_of_mem hr)
  have htarget {q : PinId} (hq : f q ≠ q) : ∃ r ∈ rs, g'.PinAt call .input r.2 (f q) := by
    obtain ⟨r, hr, hpin⟩ := h.moved q hq
    exact ⟨r, hr, (h.goes r hr q hpin).1⟩
  have hne : p ≠ t := by
    rintro rfl
    exact h.not_pinAt hg.wellFormed hp ht
  have hontimeline : g'.OnTimeline p := ⟨n, T, _, _, h.grows.kind? hn, hp'⟩
  obtain ⟨g'', hmove, hmoved⟩ := exists_movePinLinks h.playable.linked hp' ht hne fun q hq ↦ by
    refine h.ownerOf?_ne hg h.new hp.directionOf? (fun a ha ↦ ⟨?_, fun heq ↦ ?_⟩)
      (h.joins_ne hontimeline) hq
    · obtain ⟨r, -, hpin⟩ := h.moved a ha
      exact hpin.directionOf?
    · obtain ⟨r, -, hpin⟩ := htarget ha
      exact h.not_pinAt hg.wellFormed hp (heq ▸ hpin)
  refine ⟨g'', Function.update id p t ∘ f, hmove, ?_, h.new, ?_, ?_, ?_, fun r hr q hq ↦ ?_,
    fun q hq ↦ ?_⟩
  · exact h.toEvolves.move hmoved (h.joins_ne hontimeline)
      (.inl (h.pins_size_le hg.wellFormed ht))
  · rw [hmoved.faces.kind?_eq, h.kind?]
  · obtain ⟨hkind, hvalue⟩ := h.component
    exact ⟨(hmoved.faces.kind?_eq getter).trans hkind, hmoved.faces.pinAt_iff.2 hvalue⟩
  · exact hmoved.faces.pinAt_iff.2 h.target
  · rcases List.mem_append.1 hr with hr | hr
    · obtain ⟨hcall, hdefaults⟩ := h.goes r hr q hq
      have hsource : f q ≠ p := by
        intro heq
        exact h.not_pinAt hg.wellFormed hp (heq ▸ hcall)
      have hother : f q ≠ t := by
        intro heq
        exact hy ((ht.unique (heq ▸ hcall)).2.2 ▸ List.mem_map_of_mem hr)
      rw [Function.comp_apply, Function.update_of_ne hsource]
      exact ⟨hmoved.faces.pinAt_iff.2 hcall, (hmoved.others _ (.inl hother)).trans hdefaults⟩
    · obtain rfl := List.mem_singleton.1 hr
      obtain rfl := hg.names n T hn hp hq
      rw [Function.comp_apply, hfix, Function.update_self]
      refine ⟨hmoved.faces.pinAt_iff.2 ht, (hmoved.defaultsOf? ht.directionOf?).trans ?_⟩
      exact h.grows.defaults p hp.lt_size
  · by_cases heq : f q = q
    · refine ⟨(x, y), List.mem_append_right _ List.mem_cons_self, ?_⟩
      rw [Function.comp_apply, heq] at hq
      obtain rfl : q = p := by
        by_contra hqp
        exact hq (Function.update_of_ne hqp _ _)
      exact hp
    · obtain ⟨r, hr, hpin⟩ := h.moved q heq
      exact ⟨r, List.mem_append_left _ hr, hpin⟩

/-- A control whose links are all at the call is expanded. -/
theorem stage (hg : g.Playable) (hn : g.kind? n = some (.timeline T)) (hwired : Wired g n c)
    (h : Routed n getter call T c value target (routes c) f g g') :
    Stage [.control n T c] f (fun a b ↦ a = value ∧ b = target) g g' := by
  refine ⟨h.toEvolves, fun q d hq ↦ ?_, fun a b ha hb heq ↦ ?_, fun part hpart ↦ ?_,
    fun q hq ↦ ?_, fun q hq ↦ ?_, fun a b hjoin ↦ ?_, fun part hpart ↦ ?_⟩
  · by_cases hfix : f q = q
    · rw [hfix]
      exact h.grows.directionOf? hq
    · obtain ⟨r, hr, hpin⟩ := h.moved q hfix
      rw [← hq, hpin.directionOf?]
      exact (h.goes r hr q hpin).1.directionOf?
  · by_cases hfa : f a = a
    · by_cases hfb : f b = b
      · rw [← hfa, heq, hfb]
      · obtain ⟨r, hr, hpin⟩ := h.moved b hfb
        obtain ⟨pin, hold, -⟩ := directionOf?_eq_some.1 ha
        have hcall := (h.goes r hr b hpin).1
        rw [← heq, hfa] at hcall
        exact absurd hcall (h.not_pinAt hg.wellFormed ⟨pin, hold, rfl, rfl, rfl⟩)
    · obtain ⟨r, hr, hpin⟩ := h.moved a hfa
      have hcall := (h.goes r hr a hpin).1
      by_cases hfb : f b = b
      · obtain ⟨pin, hold, -⟩ := directionOf?_eq_some.1 hb
        rw [heq, hfb] at hcall
        exact absurd hcall (h.not_pinAt hg.wellFormed ⟨pin, hold, rfl, rfl, rfl⟩)
      · obtain ⟨r', hr', hpin'⟩ := h.moved b hfb
        rw [heq] at hcall
        obtain rfl := routes_inj hr' hr (hcall.unique (h.goes r' hr' b hpin').1).2.2
        exact hg.names n T hn hpin hpin'
  · obtain rfl := List.mem_singleton.1 hpart
    exact ⟨T, hn⟩
  · obtain ⟨r, hr, hpin⟩ := h.moved q hq
    refine ⟨⟨n, .input, r.1⟩, ?_, hpin⟩
    rw [List.flatMap_singleton]
    exact List.mem_map_of_mem hr
  · obtain ⟨r, hr, hpin⟩ := h.moved q hq
    exact h.offTimeline (h.goes r hr q hpin).1
  · obtain ⟨rfl, rfl⟩ := hjoin
    exact ⟨T, c, call, h.new, h.isComponent, h.kind?, h.target⟩
  · obtain rfl := List.mem_singleton.1 hpart
    have hlink : value ∈ g'.linksOf target := (h.relinks target value).2 (.inr (.inr ⟨rfl, rfl⟩))
    refine ⟨fun _ ↦ ⟨call, ⟨h.kind?, value, target, h.isComponent, h.target, hlink⟩, h.goes⟩, ?_⟩
    exact fun hnot ↦ absurd hwired hnot

end Routed

theorem exists_connect {pin : PinId} (h : Evolves id (fun _ _ ↦ False) g g')
    (hgetter : Reads g' T getter) (hnew : g.nodes.size ≤ call.index)
    (hcall : g'.kind? call = some (.callFunction (.external c timelineComponentClass false)))
    (hself : g'.PinAt call .input PinName.self pin) :
    ∃ g'' value target, g'.connect getter T call PinName.self = .ok g'' ∧ SameFaces g' g'' ∧
      Routed n getter call T c value target [] id g g'' := by
  obtain ⟨hkind, value₀, hvalue₀⟩ := hgetter
  obtain ⟨value, hfind⟩ := h.playable.wellFormed.exists_findPin? hvalue₀
  obtain ⟨target, hfind'⟩ := h.playable.wellFormed.exists_findPin? hself
  have hvalue := h.playable.wellFormed.pinAt_of_findPin? hfind
  have htarget := h.playable.wellFormed.pinAt_of_findPin? hfind'
  have hjoins : g'.Joins value target := by
    obtain ⟨vpin, hvpin, rfl, hv, -⟩ := hvalue
    obtain ⟨tpin, htpin, rfl, ht, -⟩ := htarget
    refine joins_of_pin? hvpin htpin (fun heq ↦ ?_) fun heq ↦ ?_
    · rw [heq, hkind] at hcall
      cases hcall
    · rw [ht, hv] at heq
      cases heq
  obtain ⟨g'', hmake⟩ := hjoins.exists_makeLink
  have hfaces := sameFaces_makeLink hmake
  refine ⟨g'', value, target, (connect_eq_makeLink hfind hfind').trans hmake, hfaces, ?_, hnew,
    (hfaces.kind?_eq call).trans hcall, ⟨(hfaces.kind?_eq getter).trans hkind,
    hfaces.pinAt_iff.2 hvalue⟩, hfaces.pinAt_iff.2 htarget, (fun _ h ↦ nomatch h),
    fun _ hq ↦ absurd rfl hq⟩
  simpa only [false_or] using h.link hmake

/-- Wiring the call of a control succeeds. -/
theorem exists_wireControl {ex pin : PinId} (hg : g.Playable)
    (hn : g.kind? n = some (.timeline template.name)) (hp : g.PinAt n .input c p)
    (h : Evolves id (fun _ _ ↦ False) g g') (hgetter : Reads g' template.name getter)
    (hnew : g.nodes.size ≤ call.index)
    (hcall : g'.kind? call = some (.callFunction (.external c timelineComponentClass false)))
    (hex : g'.PinAt call .input PinName.execute ex)
    (hself : g'.PinAt call .input PinName.self pin) :
    ∃ g'' f value target, wireControl g' template c n getter call p = ⟨g'', none⟩ ∧
      Routed n getter call template.name c value target (routes c) f g g'' := by
  obtain ⟨g₁, value, target, hconnect, hfaces, h₁⟩ :=
    exists_connect (n := n) h hgetter hnew hcall hself
  obtain ⟨execute, hfind⟩ := h₁.playable.wellFormed.exists_findPin? (hfaces.pinAt_iff.2 hex)
  obtain ⟨g₂, f, hmove, h₂⟩ := h₁.exists_move hg hn hp List.not_mem_nil
    (h₁.playable.wellFormed.pinAt_of_findPin? hfind) List.not_mem_nil
  have hwire : wireControl g' template c n getter call p =
      if c = setNewTime then moveNewTime n call g₂ else ⟨g₂, none⟩ := by
    unfold wireControl
    rw [hconnect]
    dsimp only [Edit.ofExcept, Edit.andThen]
    rw [findPin_eq_ok.2 hfind]
    dsimp only
    rw [hmove]
  rw [hwire]
  split
  · next hc =>
    have hroutes : routes c =
        [] ++ [(c, PinName.execute)] ++ [(PinName.newTime, PinName.newTime)] := by
      rw [routes, if_pos hc]
      rfl
    obtain ⟨⟨nt, g₃⟩, hadd⟩ : ∃ made, g₂.addPin call .input
        { name := PinName.newTime, ty := .float } = .ok made := by
      refine ⟨_, if_pos ?_⟩
      obtain ⟨node, hnode, -⟩ := Option.map_eq_some_iff.1 h₂.kind?
      rw [contains, hnode]
      rfl
    have h₃ := h₂.addPin hadd
    have hnt : g₃.PinAt call .input PinName.newTime nt :=
      ⟨_, ((addsPin_of_addPin hadd).pin? nt).trans (if_pos rfl), rfl, rfl, rfl⟩
    unfold moveNewTime
    rw [hadd, hroutes]
    dsimp only
    split
    · next source hsource =>
      have hpin := h₃.playable.wellFormed.pinAt_of_findPin? hsource
      rw [h₃.grows.pinAt_iff hg.wellFormed h₃.playable.wellFormed (lt_size_of_kind? hn)] at hpin
      obtain ⟨g₄, f', hmove', h₄⟩ := h₃.exists_move hg hn hpin (by rw [hc]; decide) hnt
        (by rw [hc]; decide)
      exact ⟨g₄, f', value, target, hmove', h₄⟩
    · next hnone =>
      refine ⟨g₃, f, value, target, rfl, h₃.skip fun q hq ↦ ?_⟩
      obtain ⟨q', hq'⟩ := h₃.playable.wellFormed.exists_findPin? (h₃.grows.pinAt hq)
      rw [hnone] at hq'
      cases hq'
  · next hc =>
    refine ⟨g₂, f, value, target, rfl, ?_⟩
    rw [routes, if_neg hc]
    exact h₂

/-! ## Controls -/

/-- A control that nothing is linked to stays as it is. -/
theorem stage_of_not_wired (hg : g.Playable) (hn : g.kind? n = some (.timeline T))
    (hwired : ¬Wired g n c) : Stage [.control n T c] id (fun _ _ ↦ False) g g := by
  refine .skip hg (fun part hpart ↦ ?_) fun part hpart ↦ ?_
  · rw [List.mem_singleton.1 hpart]
    exact ⟨T, hn⟩
  · rw [List.mem_singleton.1 hpart]
    exact ⟨fun h ↦ absurd h hwired, fun _ _ _ _ _ ↦ rfl⟩

/-- Expanding a control is a stage, after which the node that reads the component still does. -/
theorem exists_stage_expandControl {s : State} (hs : s.graph.Playable)
    (hn : s.graph.kind? n = some (.timeline template.name))
    (hgetter : ∀ id, s.getter = some id → Reads s.graph template.name id) (position : Position)
    (control : String × Nat) :
    (∀ id, (expandControl n template position s control).getter = some id →
      Reads (expandControl n template position s control).graph template.name id) ∧
    ∃ f joins, Stage [.control n template.name control.1] f joins s.graph
      (expandControl n template position s control).graph := by
  have hfindIff (p : PinId) : s.graph.findPin? n control.1 (some .input) = some p ↔
      s.graph.PinAt n .input control.1 p := hs.wellFormed.findPin?_iff (hs.names n _ hn)
  unfold expandControl
  split
  · next hnone =>
    refine ⟨hgetter, id, _, stage_of_not_wired hs hn ?_⟩
    rintro ⟨p, hp, -⟩
    rw [(hfindIff p).2 hp] at hnone
    cases hnone
  · next p hfind =>
    have hp := (hfindIff p).1 hfind
    split
    · next hempty =>
      refine ⟨hgetter, id, _, stage_of_not_wired hs hn ?_⟩
      rintro ⟨q, hq, hlinks⟩
      obtain rfl := hs.names n _ hn hp hq
      exact hlinks (List.isEmpty_iff.1 hempty)
    · next hlinks =>
      obtain ⟨getter, s₁, hmade, hstored, hreads, h₁⟩ := exists_getterFor hs hgetter position
      rw [hmade]
      dsimp only
      let kind : NodeKind := .callFunction (.external control.1 timelineComponentClass false)
      let call : NodeId := ⟨s₁.graph.nodes.size⟩
      let g₂ := (s₁.graph.spawnIntermediate kind).2.setPosition call position.x
        (position.y + (control.2 + 1 : Int) * SpawnGrid.nodeHeight)
      have hspawned : Spawned kind (s₁.graph.newPins kind) s₁.graph g₂ :=
        (spawned_spawnIntermediate s₁.graph kind).setPosition _ _
      have h₂ : Evolves id (fun _ _ ↦ False) s.graph g₂ :=
        h₁.spawn (fun _ ↦ NodeKind.noConfusion) _ _
      have hreads₂ : Reads g₂ template.name getter :=
        hreads.grows ((Grows.refl _).spawn (fun _ ↦ NodeKind.noConfusion) _ _)
      obtain ⟨ex, hex⟩ := hspawned.exists_pinAt (NodeKind.execIn PinName.execute)
        List.mem_cons_self
      obtain ⟨target, htarget⟩ := hspawned.exists_pinAt
        (.input, { name := PinName.self, ty := .selfObject })
        (List.mem_cons_of_mem _ (List.mem_cons_of_mem _ List.mem_cons_self))
      have hnew : s.graph.nodes.size ≤ call.index := h₁.grows.size_nodes
      obtain ⟨g₃, f, value, target, hwire, h₃⟩ :=
        exists_wireControl hs hn hp h₂ hreads₂ hnew hspawned.kind? hex htarget
      refine ⟨fun id hid ↦ ?_, f, fun a b ↦ a = value ∧ b = target, ?_⟩
      · obtain rfl := Option.some.inj (hstored.symm.trans hid)
        show Reads (wireControl g₂ template control.1 n getter call p).graph template.name getter
        rw [hwire]
        exact ⟨h₃.component.1, value, h₃.component.2⟩
      · show Stage _ f _ s.graph (wireControl g₂ template control.1 n getter call p).graph
        rw [hwire]
        exact h₃.stage hs hn ⟨p, hp, fun hnil ↦ hlinks (List.isEmpty_iff.2 hnil)⟩

/-! ## Tracks -/

theorem exists_eventFor {s : State} (hs : s.graph.Playable) (n : NodeId) (position : Position)
    (function : String) (row : Nat) :
    ∃ event e s', eventFor s n position function row = (event, s') ∧
      s'.graph.kind? event = some (.event e) ∧ e.function = function ∧
      Evolves id (fun _ _ ↦ False) s.graph s'.graph := by
  unfold eventFor
  dsimp only
  split
  · next event hevent =>
    obtain ⟨kind, hkind, himplements⟩ := hs.wellFormed.mem_nodesWhere.1 (List.mem_of_head? hevent)
    split at himplements
    · next e => exact ⟨event, e, s, rfl, hkind, eq_of_beq himplements, .refl hs⟩
    · cases himplements
  · refine ⟨_, _, _, rfl, ((spawned_spawnIntermediate s.graph _).setPosition _ _).kind?, rfl, ?_⟩
    exact (Evolves.refl hs).spawn (fun _ ↦ NodeKind.noConfusion) _ _

/-- An output whose links are at an event of its function is expanded. -/
theorem stage_track {event : NodeId} {e : EventData} {pin function : String}
    (hn : g.kind? n = some (.timeline T)) (h : Evolves f (fun _ _ ↦ False) g g')
    (hevent : g'.kind? event = some (.event e)) (hfunction : e.function = function)
    (hgoes : ∀ p, g.PinAt n .output pin p → g'.PinAt event .output PinName.thenOut (f p))
    (hmoved : ∀ p, f p ≠ p → g.PinAt n .output pin p) :
    Stage [.track n pin function] f (fun _ _ ↦ False) g g' := by
  have hfix {p : PinId} (hp : g.directionOf? p = some .input) : f p = p := by
    by_contra hne
    rw [(hmoved p hne).directionOf?] at hp
    cases hp
  refine ⟨h, fun q d hq ↦ ?_, fun a b ha hb heq ↦ ?_, fun part hpart ↦ ?_, fun q hq ↦ ?_,
    fun q hq ↦ ?_, fun _ _ ↦ False.elim, fun part hpart ↦ ?_⟩
  · by_cases hsame : f q = q
    · rw [hsame]
      exact h.grows.directionOf? hq
    · rw [← hq, (hmoved q hsame).directionOf?]
      exact (hgoes q (hmoved q hsame)).directionOf?
  · rw [← hfix ha, heq, hfix hb]
  · rw [List.mem_singleton.1 hpart]
    exact ⟨T, hn⟩
  · refine ⟨⟨n, .output, pin⟩, ?_, hmoved q hq⟩
    rw [List.flatMap_singleton]
    exact List.mem_cons_self
  · exact ⟨event, _, _, _, hevent, fun _ ↦ NodeKind.noConfusion, hgoes q (hmoved q hq)⟩
  · rw [List.mem_singleton.1 hpart]
    exact ⟨event, e, hevent, hfunction, hgoes⟩

/-- Expanding an output that starts a function is a stage. -/
theorem exists_stage_expandTrack {s : State} (hs : s.graph.Playable)
    (hn : s.graph.kind? n = some (.timeline T)) (position : Position)
    (track : (String × String) × Nat) :
    ∃ f joins, Stage [.track n track.1.1 track.1.2] f joins s.graph
      (expandTrack n position s track).graph := by
  obtain ⟨⟨pin, function⟩, row⟩ := track
  obtain ⟨event, e, s₁, hmade, hevent, hfunction, h₁⟩ := exists_eventFor hs n position function row
  have hpinIff {p : PinId} : s₁.graph.PinAt n .output pin p ↔ s.graph.PinAt n .output pin p :=
    h₁.grows.pinAt_iff hs.wellFormed h₁.playable.wellFormed (lt_size_of_kind? hn)
  have hbegins := h₁.playable.events event e hevent
  obtain ⟨t₀, ht₀⟩ := hbegins.goesOn
  obtain ⟨t, hfindThen⟩ := h₁.playable.wellFormed.exists_findPin? ht₀
  have ht := h₁.playable.wellFormed.pinAt_of_findPin? hfindThen
  unfold expandTrack
  dsimp only
  rw [hmade]
  dsimp only
  rw [hfindThen]
  cases hfind : s₁.graph.findPin? n pin (some .output) with
  | none =>
    have hnone (p : PinId) (hp : s.graph.PinAt n .output pin p) : False := by
      obtain ⟨p', hp'⟩ := h₁.playable.wellFormed.exists_findPin? (hpinIff.2 hp)
      rw [hfind] at hp'
      cases hp'
    refine ⟨id, _, stage_track hn h₁ hevent hfunction (fun p hp ↦ (hnone p hp).elim) ?_⟩
    exact fun p hp ↦ absurd rfl hp
  | some p =>
    have hp := h₁.playable.wellFormed.pinAt_of_findPin? hfind
    have hontimeline : s₁.graph.OnTimeline p := ⟨n, T, _, _, h₁.grows.kind? hn, hp⟩
    have hne : p ≠ t := by
      rintro rfl
      refine OffTimeline.not_onTimeline ?_ hontimeline
      exact ⟨event, _, _, _, hevent, fun _ ↦ NodeKind.noConfusion, ht⟩
    obtain ⟨g', hmove, hmoved⟩ := exists_movePinLinks h₁.playable.linked hp ht hne fun q hq ↦ by
      -- an event has no input that the output could be linked to
      obtain ⟨qpin, hqpin, hdirection⟩ := h₁.playable.linked.exists_pin?_ne hq hp.directionOf?
      rw [ownerOf?_of_pin? hqpin]
      rintro ⟨rfl⟩
      refine hbegins.noInput qpin.name q ⟨qpin, hqpin, rfl, ?_, rfl⟩
      cases hd : qpin.direction with
      | input => rfl
      | output => exact absurd hd hdirection
    have hgraph := h₁.move hmoved (fun _ _ ↦ False.elim) (.inr ht.directionOf?)
    dsimp only
    rw [hmove]
    refine ⟨Function.update id p t ∘ id, _, stage_track hn hgraph
      ((hmoved.faces.kind?_eq event).trans hevent) hfunction (fun q hq ↦ ?_) fun q hq ↦ ?_⟩
    · obtain rfl := hs.names n T hn (hpinIff.1 hp) hq
      rw [Function.comp_apply, id, Function.update_self]
      exact hmoved.faces.pinAt_iff.2 ht
    · obtain rfl : q = p := by
        by_contra hqp
        exact hq (Function.update_of_ne hqp _ _)
      exact hpinIff.1 hp

end VisualScript.Timelines
