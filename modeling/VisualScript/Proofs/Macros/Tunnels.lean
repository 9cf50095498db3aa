import VisualScript.Proofs.Graph.Expansion
import VisualScript.Proofs.Graph.Splicing

/-!
# Collapsing tunnels

Tunnels are collapsed one pin after another.  However far that has come, the wires
are the paths through the joints that were collapsed, and an input that a path
starting at the boundary leads to stands for what that boundary pin stands for.
-/

namespace VisualScript.Expansion

open VisualScript.Graph WirePath

/-! ## Joints -/

/-- The side on which a tunnel is wired to the body. -/
def innerSide (entry : Bool) : Direction := if entry then .output else .input

/-- The tunnel pin `p` joins what arrives at `x` to what `y` leads to: the entry passes on what
arrives at the instance, and the instance what arrives at the exit. -/
def JoinedBy (u : Graph) (inst : NodeId) (tunnels : List NodeId) (p x y : PinId) : Prop :=
  ∃ pin entry instPin, u.pin? p = some pin ∧ pin.owner ∈ tunnels ∧
    u.kind? pin.owner = some (.tunnel entry) ∧ pin.direction = innerSide entry ∧
    u.findPin? inst pin.name (some (innerSide entry).opposite) = some instPin ∧
    jointEnds entry instPin p = (x, y)

/-- The joints of some tunnel pins. -/
def joints (u : Graph) (inst : NodeId) (tunnels : List NodeId) (ps : List PinId) (x y : PinId) :
    Prop :=
  ∃ p ∈ ps, JoinedBy u inst tunnels p x y

/-- A graph with an instance and the tunnels of its body in it, not wired to each other yet. -/
structure Ready (u : Graph) (inst : NodeId) (tunnels : List NodeId) : Prop where
  wellFormed : u.WellFormed
  linked : u.Linked
  apart : ∀ tunnel ∈ tunnels, ∀ p ∈ u.pinsOf tunnel, ∀ q ∈ u.pinsOf inst, ¬u.Feeds p q ∧ ¬u.Feeds q p
  kind : ∀ entry, u.kind? inst ≠ some (.tunnel entry)

section Joints

variable {u : Graph} {inst : NodeId} {tunnels : List NodeId} {p q x y : PinId}

/-- Either the input of a joint is on the instance and its output is the tunnel pin, or the other
way round. -/
theorem JoinedBy.ends (h : Ready u inst tunnels) (hjoin : JoinedBy u inst tunnels p x y) :
    ∃ tunnel ∈ tunnels, p ∈ u.pinsOf tunnel ∧ u.directionOf? x = some .input ∧
      u.directionOf? y = some .output ∧
      (x ∈ u.pinsOf inst ∧ y = p ∨ y ∈ u.pinsOf inst ∧ x = p) := by
  obtain ⟨pin, entry, instPin, hpin, htunnel, -, hdirection, hfind, hends⟩ := hjoin
  obtain ⟨hmem, hdirection'⟩ := findPin?_eq_some hfind
  have hp : u.directionOf? p = some (innerSide entry) := directionOf?_eq_some.2 ⟨pin, hpin, hdirection⟩
  refine ⟨pin.owner, htunnel, (h.wellFormed.mem_pinsOf _ p).2 (ownerOf?_of_pin? hpin), ?_⟩
  cases entry with
  | true =>
    obtain ⟨rfl, rfl⟩ := Prod.ext_iff.1 hends
    exact ⟨hdirection', hp, .inl ⟨hmem, rfl⟩⟩
  | false =>
    obtain ⟨rfl, rfl⟩ := Prod.ext_iff.1 hends
    exact ⟨hp, hdirection', .inr ⟨hmem, rfl⟩⟩

theorem JoinedBy.unique {x' y' : PinId} (h : JoinedBy u inst tunnels p x y)
    (h' : JoinedBy u inst tunnels p x' y') : x' = x ∧ y' = y := by
  obtain ⟨pin, entry, instPin, hpin, -, hkind, -, hfind, hends⟩ := h
  obtain ⟨_, _, _, hpin', -, hkind', -, hfind', hends'⟩ := h'
  cases hpin.symm.trans hpin'
  cases hkind.symm.trans hkind'
  cases hfind.symm.trans hfind'
  exact Prod.ext_iff.1 (hends'.symm.trans hends)

theorem Ready.not_feeds_self (h : Ready u inst tunnels) (hp : p ∈ u.pinsOf inst)
    (hq : q ∈ u.pinsOf inst) : ¬u.Feeds p q := fun hfeeds ↦
  (h.linked.feeds hfeeds).2.2 (((h.wellFormed.mem_pinsOf inst q).1 hq).trans
    ((h.wellFormed.mem_pinsOf inst p).1 hp).symm)

/-- No wire leads from an output of the instance to a joint. -/
theorem Ready.not_feeds_joint (h : Ready u inst tunnels) (hq : q ∈ u.pinsOf inst)
    (hjoin : JoinedBy u inst tunnels p x y) : ¬u.Feeds q x := by
  obtain ⟨tunnel, htunnel, hp, -, -, ⟨hx, -⟩ | ⟨-, rfl⟩⟩ := hjoin.ends h
  · exact h.not_feeds_self hq hx
  · exact (h.apart tunnel htunnel _ hp q hq).2

/-- No wire leads from a joint to an input of the instance. -/
theorem Ready.not_joint_feeds (h : Ready u inst tunnels) (hq : q ∈ u.pinsOf inst)
    (hjoin : JoinedBy u inst tunnels p x y) : ¬u.Feeds y q := by
  obtain ⟨tunnel, htunnel, hp, -, -, ⟨-, rfl⟩ | ⟨hy, -⟩⟩ := hjoin.ends h
  · exact (h.apart tunnel htunnel _ hp q hq).1
  · exact h.not_feeds_self hy hq

/-- No path leads from an output of the instance to a joint. -/
theorem Ready.no_path_to_joint {ps : List PinId} (h : Ready u inst tunnels)
    (hq : q ∈ u.pinsOf inst) (hjoin : JoinedBy u inst tunnels p x y) :
    ¬WirePath u.Feeds (joints u inst tunnels ps) q x := fun hpath ↦
  h.not_feeds_joint hq hjoin
    (hpath.wire_of_source fun _ _ ⟨_, _, hjoin'⟩ ↦ h.not_feeds_joint hq hjoin')

/-- No path leads from a joint back to it. -/
theorem Ready.no_loop (h : Ready u inst tunnels) (hjoin : JoinedBy u inst tunnels p x y)
    (ps : List PinId) :
    ¬WirePath u.Feeds (joints u inst tunnels ps) y x := by
  intro hpath
  obtain ⟨-, -, -, -, -, ⟨hx, -⟩ | ⟨hy, -⟩⟩ := hjoin.ends h
  · exact h.not_joint_feeds hx hjoin
      (hpath.wire_of_target fun _ _ ⟨_, _, hjoin'⟩ ↦ h.not_joint_feeds hx hjoin')
  · exact h.no_path_to_joint hy hjoin hpath

theorem joints_concat (hjoin : JoinedBy u inst tunnels p x y) (ps : List PinId) :
    joints u inst tunnels (ps ++ [p]) =
      fun a b ↦ joints u inst tunnels ps a b ∨ a = x ∧ b = y := by
  funext a b
  refine propext ⟨?_, ?_⟩
  · rintro ⟨q, hq, hjoin'⟩
    rcases List.mem_append.1 hq with hq | hq
    · exact .inl ⟨q, hq, hjoin'⟩
    · cases List.mem_singleton.1 hq
      exact .inr (hjoin.unique hjoin')
  · rintro (⟨q, hq, hjoin'⟩ | ⟨rfl, rfl⟩)
    · exact ⟨q, List.mem_append_left _ hq, hjoin'⟩
    · exact ⟨p, List.mem_append_right _ List.mem_cons_self, hjoin⟩

theorem joints_concat_of_not (hnot : ∀ x y, ¬JoinedBy u inst tunnels p x y) (ps : List PinId) :
    joints u inst tunnels (ps ++ [p]) = joints u inst tunnels ps := by
  funext a b
  refine propext ⟨?_, ?_⟩
  · rintro ⟨q, hq, hjoin⟩
    rcases List.mem_append.1 hq with hq | hq
    · exact ⟨q, hq, hjoin⟩
    · cases List.mem_singleton.1 hq
      exact absurd hjoin (hnot a b)
  · rintro ⟨q, hq, hjoin⟩
    exact ⟨q, List.mem_append_left _ hq, hjoin⟩

end Joints

/-! ## What collapsing has reached -/

/-- How far collapsing has come: the tunnel pins `done` are collapsed, the tunnels `removed` are
removed, and the pins in `gone` are not wired any more. -/
structure Collapsed (u : Graph) (inst : NodeId) (tunnels : List NodeId) (done : List PinId)
    (removed : List NodeId) (gone : PinId → Prop) (g : Graph) : Prop where
  wellFormed : g.WellFormed
  linked : g.Linked
  order : g.order = u.order.filter (· ∉ removed)
  nodes : ∀ n ∉ removed, g.node? n = u.node? n
  pins : ∀ p, ¬gone p → (g.pin? p).map Pin.unwired = (u.pin? p).map Pin.unwired
  /-- A collapsed tunnel pin is cut off. -/
  cut : ∀ p ∈ done, ∀ x y, JoinedBy u inst tunnels p x y → gone p
  feeds : ∀ p q, g.Feeds p q ↔
    ¬gone p ∧ ¬gone q ∧ WirePath u.Feeds (joints u inst tunnels done) p q
  kept : ∀ q, ¬gone q → (∀ x y, joints u inst tunnels done x y →
    ¬WirePath u.Feeds (joints u inst tunnels done) y q) → g.defaultsOf? q = u.defaultsOf? q
  /-- An input that only joints lead to stands for what a boundary pin stands for. -/
  filled : ∀ q, ¬gone q →
    (∃ x y, joints u inst tunnels done x y ∧ WirePath u.Feeds (joints u inst tunnels done) y q) →
    (∀ s, WirePath u.Feeds (joints u inst tunnels done) s q → ∃ x, joints u inst tunnels done x s) →
    ∃ x, StartsAt u.Feeds (joints u inst tunnels done) x q ∧ g.defaultsOf? q = u.defaultsOf? x

section Steps

variable {u g g' : Graph} {inst : NodeId} {tunnels removed : List NodeId} {done : List PinId}
  {gone : PinId → Prop} {p x y : PinId}

theorem Collapsed.congr_gone {gone' : PinId → Prop}
    (h : Collapsed u inst tunnels done removed gone g) (hgone : ∀ p, gone p ↔ gone' p) :
    Collapsed u inst tunnels done removed gone' g := by
  rwa [show gone' = gone from funext fun p ↦ propext (hgone p).symm]

/-- A tunnel pin on the outer side joins nothing. -/
theorem Collapsed.skip (h : Collapsed u inst tunnels done removed gone g)
    (hnot : ∀ x y, ¬JoinedBy u inst tunnels p x y) :
    Collapsed u inst tunnels (done ++ [p]) removed gone g := by
  have hjoints := joints_concat_of_not hnot done
  refine ⟨h.wellFormed, h.linked, h.order, h.nodes, h.pins, fun q hq x y hjoin ↦ ?_, ?_, ?_, ?_⟩
  · rcases List.mem_append.1 hq with hq | hq
    · exact h.cut q hq x y hjoin
    · cases List.mem_singleton.1 hq
      exact absurd hjoin (hnot x y)
  · rw [hjoints]
    exact h.feeds
  · rw [hjoints]
    exact h.kept
  · rw [hjoints]
    exact h.filled

section Joint

variable (hjoin : JoinedBy u inst tunnels p x y)
include hjoin

theorem joints_mono_concat (a b : PinId) (hab : joints u inst tunnels done a b) :
    joints u inst tunnels (done ++ [p]) a b :=
  joints_concat hjoin done ▸ .inl hab

theorem joints_newest : joints u inst tunnels (done ++ [p]) x y :=
  joints_concat hjoin done ▸ .inr ⟨rfl, rfl⟩

/-- A path leads through the new joint or is an old one. -/
theorem path_concat_iff {a b : PinId} : WirePath u.Feeds (joints u inst tunnels (done ++ [p])) a b ↔
    WirePath u.Feeds (joints u inst tunnels done) a b ∨
      WirePath u.Feeds (joints u inst tunnels done) a x ∧
        WirePath u.Feeds (joints u inst tunnels done) y b := by
  rw [joints_concat hjoin done]
  exact insert_iff

variable (h : Collapsed u inst tunnels done removed gone g)
  {q : PinId} (hsource : ∀ s, WirePath u.Feeds (joints u inst tunnels (done ++ [p])) s q →
    ∃ a, joints u inst tunnels (done ++ [p]) a s)
include h hsource

/-- An input behind the new joint stands for what the end of the joint stood for, which nothing
fed. -/
theorem Collapsed.filled_behind (hready : Ready u inst tunnels) (hx : ¬gone x)
    (hyq : WirePath u.Feeds (joints u inst tunnels done) y q) : (∀ s, ¬g.Feeds s x) ∧
      ∃ a, StartsAt u.Feeds (joints u inst tunnels (done ++ [p])) a q ∧
        g.defaultsOf? x = u.defaultsOf? a := by
  -- what arrives at the joint would arrive at `q`
  have hold {s : PinId} (hs : WirePath u.Feeds (joints u inst tunnels done) s x) :
      ∃ a, joints u inst tunnels done a s := by
    obtain ⟨a, ha⟩ := hsource s ((path_concat_iff hjoin).2 (.inr ⟨hs, hyq⟩))
    rw [joints_concat hjoin] at ha
    rcases ha with ha | ⟨-, rfl⟩
    · exact ⟨a, ha⟩
    · exact absurd hs (hready.no_loop hjoin done)
  have hnewest : joints u inst tunnels (done ++ [p]) x y := joints_newest hjoin
  have hrest : WirePath u.Feeds (joints u inst tunnels (done ++ [p])) y q :=
    hyq.mono (joints_mono_concat hjoin)
  refine ⟨fun s hs ↦ ?_, ?_⟩
  · obtain ⟨hgone', -, hs⟩ := (h.feeds s x).1 hs
    obtain ⟨a, p', hp', hjoin'⟩ := hold hs
    obtain ⟨-, -, -, -, -, ⟨-, rfl⟩ | ⟨hinst, -⟩⟩ := hjoin'.ends hready
    · exact hgone' (h.cut s hp' a s hjoin')
    · exact hready.no_path_to_joint hinst hjoin hs
  · by_cases hxfed : ∃ a b, joints u inst tunnels done a b ∧
        WirePath u.Feeds (joints u inst tunnels done) b x
    · obtain ⟨a, hstart, hdefaults⟩ := h.filled x hx hxfed fun s hs ↦ hold hs
      exact ⟨a, (hstart.mono (joints_mono_concat hjoin)).through hnewest hrest, hdefaults⟩
    · refine ⟨x, ⟨fun s hs ↦ ?_, y, hnewest, hrest⟩,
        h.kept x hx fun a b hab hb ↦ hxfed ⟨a, b, hab, hb⟩⟩
      obtain ⟨a, ha⟩ := hold (.wire hs)
      exact hxfed ⟨a, s, ha, .wire hs⟩

/-- An input that is not behind the new joint stands for what it stood for. -/
theorem Collapsed.filled_beside (hq : ¬gone q)
    (hyq : ¬WirePath u.Feeds (joints u inst tunnels done) y q)
    (hfed : ∃ a b, joints u inst tunnels (done ++ [p]) a b ∧
      WirePath u.Feeds (joints u inst tunnels (done ++ [p])) b q) :
    ∃ a, StartsAt u.Feeds (joints u inst tunnels (done ++ [p])) a q ∧
      g.defaultsOf? q = u.defaultsOf? a := by
  have hsame (s : PinId) : WirePath u.Feeds (joints u inst tunnels (done ++ [p])) s q ↔
      WirePath u.Feeds (joints u inst tunnels done) s q := by
    rw [path_concat_iff hjoin, or_iff_left]
    exact fun hs ↦ hyq hs.2
  have hold {a s : PinId} (hs : WirePath u.Feeds (joints u inst tunnels done) s q)
      (ha : joints u inst tunnels (done ++ [p]) a s) : joints u inst tunnels done a s := by
    rw [joints_concat hjoin] at ha
    rcases ha with ha | ⟨-, rfl⟩
    · exact ha
    · exact absurd hs hyq
  obtain ⟨a, b, hab, hb⟩ := hfed
  rw [hsame] at hb
  obtain ⟨x', hstart, hdefaults⟩ := h.filled q hq ⟨a, b, hold hb hab, hb⟩ fun s hs ↦
    (hsource s ((hsame s).2 hs)).imp fun _ ↦ hold hs
  exact ⟨x', hstart.mono (joints_mono_concat hjoin), hdefaults⟩

end Joint

/-- Rewiring the tunnel pin of a joint collapses it. -/
theorem Collapsed.rewire (hready : Ready u inst tunnels)
    (h : Collapsed u inst tunnels done removed gone g) {entry : Bool} {instPin : PinId}
    (hjoin : JoinedBy u inst tunnels p x y) (hends : jointEnds entry instPin p = (x, y))
    (hx : ¬gone x) (hy : ¬gone y) (hok : (g.rewireThrough instPin p entry).2 = true) :
    Collapsed u inst tunnels (done ++ [p]) removed (fun q ↦ gone q ∨ q = p)
      (g.rewireThrough instPin p entry).1 := by
  have hfaces {q : PinId} (hq : ¬gone q) : g.directionOf? q = u.directionOf? q := by
    have hpins := congrArg (Option.map Pin.direction) (h.pins q hq)
    rw [Option.map_map, Option.map_map] at hpins
    exact hpins
  obtain ⟨tunnel, htunnel, hp, hxin, hyout, -⟩ := hjoin.ends hready
  obtain ⟨hsame, hlinked, hfeeds, hfill, hkeep⟩ := rewireThrough_ok h.linked hends
    ((hfaces hx).trans hxin) ((hfaces hy).trans hyout)
    (fun hback ↦ hready.no_loop hjoin done ((h.feeds y x).1 hback).2.2) hok
  have hcut (q : PinId) (hq : q ∈ done ++ [p]) (a b : PinId)
      (hjoin' : JoinedBy u inst tunnels q a b) : gone q ∨ q = p :=
    (List.mem_append.1 hq).imp (h.cut q · a b hjoin') List.mem_singleton.1
  refine ⟨hsame.sameBooks.wellFormed h.wellFormed, hlinked,
    hsame.order.trans h.order, fun n hn ↦ (hsame.nodes n).trans (h.nodes n hn),
    fun q hq ↦ (hsame.pins q).trans (h.pins q fun hgone ↦ hq (.inl hgone)), hcut,
    fun a b ↦ ?_, fun q hq hnone ↦ ?_, fun q hq hfed hsource ↦ ?_⟩
  · rw [hfeeds, path_concat_iff hjoin, h.feeds, h.feeds, h.feeds]
    tauto
  · have hyq : ¬WirePath u.Feeds (joints u inst tunnels done) y q := fun hpathq ↦
      hnone x y (joints_newest hjoin) ((path_concat_iff hjoin).2 (.inl hpathq))
    rw [hkeep q (.inl fun hback ↦ hyq ((h.feeds y q).1 hback).2.2)]
    exact h.kept q (fun hgone ↦ hq (.inl hgone)) fun a b hab hpathq ↦
      hnone a b (joints_mono_concat hjoin a b hab) ((path_concat_iff hjoin).2 (.inl hpathq))
  · have hgone : ¬gone q := fun hgone ↦ hq (.inl hgone)
    by_cases hyq : WirePath u.Feeds (joints u inst tunnels done) y q
    · obtain ⟨hnone, a, hstart, hdefaults⟩ := h.filled_behind hjoin hsource hready hx hyq
      exact ⟨a, hstart, (hfill q ((h.feeds y q).2 ⟨hy, hgone, hyq⟩) hnone).trans hdefaults⟩
    · obtain ⟨a, hstart, hdefaults⟩ := h.filled_beside hjoin hsource hgone hyq hfed
      refine ⟨a, hstart, ?_⟩
      rw [hkeep q (.inl fun hback ↦ hyq ((h.feeds y q).1 hback).2.2), hdefaults]

/-- Nothing is collapsed to begin with. -/
theorem Collapsed.refl (hready : Ready u inst tunnels) :
    Collapsed u inst tunnels [] [] (· ∈ ([] : List PinId)) u where
  wellFormed := hready.wellFormed
  linked := hready.linked
  order := (List.filter_eq_self.2 fun _ _ ↦ by simp).symm
  nodes _ _ := rfl
  pins _ _ := rfl
  cut _ hp := absurd hp List.not_mem_nil
  feeds p q := by
    have hwire : WirePath u.Feeds (joints u inst tunnels []) p q ↔ u.Feeds p q :=
      ⟨fun h ↦ h.wire_of_source fun _ _ ⟨_, hp, _⟩ ↦ absurd hp List.not_mem_nil, .wire⟩
    rw [hwire]
    simp
  kept _ _ _ := rfl
  filled _ _ := fun ⟨_, _, ⟨_, hp, _⟩, _⟩ ↦ absurd hp List.not_mem_nil

/-- A removed node takes its pins and their wires with it. -/
theorem Collapsed.remove {tunnel : NodeId} (h : Collapsed u inst tunnels done removed gone g)
    (hlive : u.contains tunnel = true) (hfresh : tunnel ∉ removed) :
    Collapsed u inst tunnels done (removed ++ [tunnel]) (fun q ↦ gone q ∨ q ∈ u.pinsOf tunnel)
      (g.removeNode tunnel) := by
  have hnode := h.nodes tunnel hfresh
  have hcontains : g.contains tunnel = true := by rw [contains, hnode, ← contains, hlive]
  have hpins : g.pinsOf tunnel = u.pinsOf tunnel := by rw [pinsOf, hnode, pinsOf]
  refine ⟨h.wellFormed.removeNode tunnel, h.linked.removeNode tunnel, ?_, fun n hn ↦ ?_,
    fun p hp ↦ ?_, fun p hp x y hjoin ↦ .inl (h.cut p hp x y hjoin), fun p q ↦ ?_,
    fun q hq hnone ↦ ?_, fun q hq hfed hsource ↦ ?_⟩
  · rw [order_removeNode hcontains, h.order, List.filter_filter]
    refine List.filter_congr fun n _ ↦ ?_
    simp only [List.mem_append, List.mem_singleton, not_or, Bool.decide_and, Bool.and_comm]
  · rw [List.mem_append, List.mem_singleton, not_or] at hn
    rw [node?_removeNode_of_ne hcontains hn.2, h.nodes n hn.1]
  · rw [not_or, ← hpins] at hp
    rw [unwired_removeNode hcontains hp.2, h.pins p hp.1]
  · rw [feeds_removeNode hcontains h.linked, h.feeds, hpins]
    tauto
  · rw [not_or, ← hpins] at hq
    rw [defaultsOf?_removeNode hcontains hq.2, h.kept q hq.1 hnone]
  · rw [not_or, ← hpins] at hq
    rw [defaultsOf?_removeNode hcontains hq.2]
    exact h.filled q hq.1 hfed hsource

end Steps

/-! ## Collapsing without errors -/

section Quiet

variable {e : Expansion} {inst tunnel : NodeId} {entry : Bool} {p : PinId}

theorem le_numErrors_foldl {α : Type} {f : Expansion → α → Expansion}
    (hf : ∀ e a, e.log.numErrors ≤ (f e a).log.numErrors) (l : List α) (e : Expansion) :
    e.log.numErrors ≤ (l.foldl f e).log.numErrors := by
  induction l generalizing e with
  | nil => exact Nat.le_refl _
  | cons a l ih => exact Nat.le_trans (hf e a) (ih (f e a))

/-- A pin is left alone, rewired or reported. -/
theorem collapsePin_cases (tunnel inst : NodeId) (entry : Bool) (e : Expansion) (p : PinId) :
    (collapsePin tunnel inst entry e p = e ∧
      ∀ pin, e.graph.pin? p = some pin → pin.direction ≠ innerSide entry) ∨
    (∃ pin instPin, e.graph.pin? p = some pin ∧ pin.direction = innerSide entry ∧
      e.graph.findPin? inst pin.name (some (innerSide entry).opposite) = some instPin ∧
      (e.graph.rewireThrough instPin p entry).2 = true ∧
      collapsePin tunnel inst entry e p =
        { e with graph := (e.graph.rewireThrough instPin p entry).1 }) ∨
    (collapsePin tunnel inst entry e p).log.numErrors = e.log.numErrors + 1 := by
  unfold collapsePin
  extract_lets side
  split
  · next hpin =>
    refine .inl ⟨rfl, fun pin hpin' ↦ ?_⟩
    rw [hpin] at hpin'
    cases hpin'
  · next pin hpin =>
    split
    · next hside =>
      refine .inl ⟨rfl, fun pin' hpin' ↦ ?_⟩
      cases hpin.symm.trans hpin'
      exact hside
    · next hside =>
      split
      · exact .inr (.inr rfl)
      · next instPin hfind =>
        dsimp only
        cases hok : (e.graph.rewireThrough instPin p entry).2 with
        | true => exact .inr (.inl ⟨pin, instPin, hpin, not_not.1 hside, hfind, hok, rfl⟩)
        | false => exact .inr (.inr rfl)

theorem le_numErrors_collapsePin (tunnel inst : NodeId) (entry : Bool) (e : Expansion)
    (p : PinId) : e.log.numErrors ≤ (collapsePin tunnel inst entry e p).log.numErrors := by
  rcases collapsePin_cases tunnel inst entry e p with ⟨h, -⟩ | ⟨_, _, -, -, -, -, h⟩ | h
  · exact Nat.le_of_eq (congrArg (·.log.numErrors) h.symm)
  · exact Nat.le_of_eq (congrArg (·.log.numErrors) h.symm)
  · omega

theorem collapseTunnel_of_kind (h : e.graph.kind? tunnel = some (.tunnel entry)) :
    collapseTunnel inst e tunnel =
      { (e.graph.pinsOf tunnel).foldl (collapsePin tunnel inst entry) e with
        graph := ((e.graph.pinsOf tunnel).foldl (collapsePin tunnel inst entry) e).graph.removeNode
          tunnel } := by
  unfold collapseTunnel
  rw [h]

theorem le_numErrors_collapseTunnel (inst : NodeId) (e : Expansion) (tunnel : NodeId) :
    e.log.numErrors ≤ (collapseTunnel inst e tunnel).log.numErrors := by
  unfold collapseTunnel
  split
  · exact le_numErrors_foldl (le_numErrors_collapsePin tunnel inst _) _ e
  · exact Nat.le_refl _

variable {u : Graph} {tunnels removed : List NodeId} {done : List PinId} {gone : PinId → Prop}

theorem Collapsed.findPin?_eq {g : Graph} (h : Collapsed u inst tunnels done removed gone g)
    (hfresh : inst ∉ removed) (hinst : ∀ q ∈ u.pinsOf inst, ¬gone q) (name : String)
    (d : Option Direction) : g.findPin? inst name d = u.findPin? inst name d := by
  refine findPin?_congr ?_ (fun q hq ↦ h.pins q (hinst q hq)) name d
  rw [pinsOf, h.nodes inst hfresh, ← pinsOf]

/-- One step of collapsing that reports no error. -/
theorem Collapsed.collapsePin (hready : Ready u inst tunnels)
    (h : Collapsed u inst tunnels done removed gone e.graph) (hfresh : inst ∉ removed)
    (hinst : ∀ q ∈ u.pinsOf inst, ¬gone q) (htunnel : tunnel ∈ tunnels)
    (hkind : u.kind? tunnel = some (.tunnel entry)) (hp : p ∈ u.pinsOf tunnel) (hgone : ¬gone p)
    (hquiet : (collapsePin tunnel inst entry e p).log.numErrors ≤ e.log.numErrors) :
    ∃ gone' : PinId → Prop, (∀ q, gone q → gone' q) ∧ (∀ q, gone' q → gone q ∨ q = p) ∧
      Collapsed u inst tunnels (done ++ [p]) removed gone'
        (Expansion.collapsePin tunnel inst entry e p).graph := by
  have hface := h.pins p hgone
  rcases collapsePin_cases tunnel inst entry e p with
    ⟨heq, hside⟩ | ⟨pin, instPin, hpin, hside, hfind, hok, heq⟩ | herror
  · refine ⟨gone, fun _ ↦ id, fun _ ↦ .inl, ?_⟩
    rw [heq]
    refine h.skip fun x y hjoin ↦ ?_
    obtain ⟨pin, _, -, hpin, -, hkind', hside', -⟩ := hjoin
    obtain rfl := hready.wellFormed.owner_eq hp hpin
    cases hkind.symm.trans hkind'
    rw [hpin, Option.map_some] at hface
    obtain ⟨pin', hpin', hunwired⟩ := Option.map_eq_some_iff.1 hface
    have hdirection := congrArg Pin.direction hunwired
    exact hside pin' hpin' (hdirection.trans hside')
  · rw [hpin, Option.map_some] at hface
    obtain ⟨pin', hpin', hunwired⟩ := Option.map_eq_some_iff.1 hface.symm
    have howner := hready.wellFormed.owner_eq hp hpin'
    have hname : pin'.name = pin.name := (congrArg Pin.name hunwired :)
    have hdirection : pin'.direction = pin.direction := (congrArg Pin.direction hunwired :)
    rw [h.findPin?_eq hfresh hinst] at hfind
    have hjoin : JoinedBy u inst tunnels p (jointEnds entry instPin p).1
        (jointEnds entry instPin p).2 :=
      ⟨pin', entry, instPin, hpin', howner ▸ htunnel, howner ▸ hkind, hdirection.trans hside,
        hname ▸ hfind, rfl⟩
    have hends : ¬gone (jointEnds entry instPin p).1 ∧ ¬gone (jointEnds entry instPin p).2 := by
      have hinstPin := hinst instPin (findPin?_eq_some hfind).1
      cases entry
      · exact ⟨hgone, hinstPin⟩
      · exact ⟨hinstPin, hgone⟩
    refine ⟨fun q ↦ gone q ∨ q = p, fun _ ↦ .inl, fun _ ↦ id, ?_⟩
    rw [heq]
    exact h.rewire hready hjoin rfl hends.1 hends.2 hok
  · omega

/-- The pins of a tunnel are collapsed in turn. -/
theorem Collapsed.collapsePins (hready : Ready u inst tunnels) (hfresh : inst ∉ removed)
    (htunnel : tunnel ∈ tunnels) (hkind : u.kind? tunnel = some (.tunnel entry))
    (hapart : ∀ q ∈ u.pinsOf inst, q ∉ u.pinsOf tunnel) {ps : List PinId} (hnodup : ps.Nodup)
    (hps : ∀ p ∈ ps, p ∈ u.pinsOf tunnel ∧ ¬gone p)
    (h : Collapsed u inst tunnels done removed gone e.graph) (hinst : ∀ q ∈ u.pinsOf inst, ¬gone q)
    (hquiet : (ps.foldl (Expansion.collapsePin tunnel inst entry) e).log.numErrors ≤
      e.log.numErrors) :
    ∃ gone' : PinId → Prop, (∀ q, gone q → gone' q) ∧ (∀ q, gone' q → gone q ∨ q ∈ ps) ∧
      Collapsed u inst tunnels (done ++ ps) removed gone'
        (ps.foldl (Expansion.collapsePin tunnel inst entry) e).graph := by
  induction ps generalizing e done gone with
  | nil => exact ⟨gone, fun _ ↦ id, fun _ ↦ .inl, by rwa [List.append_nil]⟩
  | cons p ps ih =>
    obtain ⟨hp, hnodup⟩ := List.nodup_cons.1 hnodup
    obtain ⟨hmem, hgone⟩ := hps p List.mem_cons_self
    have hlater := le_numErrors_foldl (le_numErrors_collapsePin tunnel inst entry) ps
      (Expansion.collapsePin tunnel inst entry e p)
    have hfirst := le_numErrors_collapsePin tunnel inst entry e p
    obtain ⟨gone₁, hgrow₁, honly₁, h₁⟩ :=
      h.collapsePin hready hfresh hinst htunnel hkind hmem hgone (Nat.le_trans hlater hquiet)
    have hps₁ (q : PinId) (hq : q ∈ ps) : q ∈ u.pinsOf tunnel ∧ ¬gone₁ q := by
      refine ⟨(hps q (List.mem_cons_of_mem p hq)).1, fun hgone₁ ↦ ?_⟩
      rcases honly₁ q hgone₁ with hgone | rfl
      · exact (hps q (List.mem_cons_of_mem p hq)).2 hgone
      · exact hp hq
    have hinst₁ (q : PinId) (hq : q ∈ u.pinsOf inst) : ¬gone₁ q := by
      intro hgone₁
      rcases honly₁ q hgone₁ with hgone | rfl
      · exact hinst q hq hgone
      · exact hapart q hq hmem
    obtain ⟨gone₂, hgrow₂, honly₂, h₂⟩ := ih hnodup hps₁ h₁ hinst₁ (Nat.le_trans hquiet hfirst)
    refine ⟨gone₂, fun q hq ↦ hgrow₂ q (hgrow₁ q hq), fun q hq ↦ ?_, ?_⟩
    · rcases honly₂ q hq with hq | hq
      · rcases honly₁ q hq with hq | rfl
        · exact .inl hq
        · exact .inr List.mem_cons_self
      · exact .inr (List.mem_cons_of_mem p hq)
    · rwa [List.append_assoc] at h₂

/-- The tunnels are collapsed and removed in turn. -/
theorem Collapsed.collapseTunnels (hready : Ready u inst tunnels) {rest : List NodeId}
    (hrest : ∀ tunnel ∈ rest, tunnel ∈ tunnels ∧ ∃ entry, u.kind? tunnel = some (.tunnel entry))
    (hnodup : (removed ++ rest).Nodup) (hfresh : inst ∉ removed ++ rest)
    (h : Collapsed u inst tunnels (removed.flatMap u.pinsOf) removed
      (· ∈ removed.flatMap u.pinsOf) e.graph)
    (hquiet : (rest.foldl (collapseTunnel inst) e).log.numErrors ≤ e.log.numErrors) :
    Collapsed u inst tunnels ((removed ++ rest).flatMap u.pinsOf) (removed ++ rest)
      (· ∈ (removed ++ rest).flatMap u.pinsOf) (rest.foldl (collapseTunnel inst) e).graph := by
  induction rest generalizing e removed with
  | nil => rwa [List.append_nil]
  | cons tunnel rest ih =>
    obtain ⟨htunnel, entry, hkind⟩ := hrest tunnel List.mem_cons_self
    have hnot : tunnel ∉ removed := fun hmem ↦
      (List.nodup_append'.1 hnodup).2.2 hmem List.mem_cons_self
    have hne : inst ≠ tunnel := by
      rintro rfl
      exact hready.kind entry hkind
    have hinst : inst ∉ removed := fun hmem ↦ hfresh (List.mem_append_left _ hmem)
    -- pins of different nodes are different
    have hdisjoint {m n : NodeId} (hmn : m ≠ n) {q : PinId} (hm : q ∈ u.pinsOf m) :
        q ∉ u.pinsOf n := fun hn ↦ hmn (Option.some.inj
      (((hready.wellFormed.mem_pinsOf m q).1 hm).symm.trans ((hready.wellFormed.mem_pinsOf n q).1 hn)))
    have hgone {n : NodeId} (hn : n ∉ removed) (q : PinId) (hq : q ∈ u.pinsOf n) :
        q ∉ removed.flatMap u.pinsOf := by
      intro hmem
      obtain ⟨m, hm, hqm⟩ := List.mem_flatMap.1 hmem
      refine hdisjoint ?_ hqm hq
      rintro rfl
      exact hn hm
    have hnode := h.nodes tunnel hnot
    have hpinsOf : e.graph.pinsOf tunnel = u.pinsOf tunnel := by rw [pinsOf, hnode, pinsOf]
    have hkind' : e.graph.kind? tunnel = some (.tunnel entry) := by rw [kind?, hnode, ← kind?, hkind]
    have hlater := le_numErrors_foldl (le_numErrors_collapseTunnel inst) rest
      (collapseTunnel inst e tunnel)
    have hfirst := le_numErrors_collapseTunnel inst e tunnel
    have hquiet₁ := Nat.le_trans hlater hquiet
    rw [collapseTunnel_of_kind hkind', hpinsOf] at hquiet₁
    obtain ⟨gone', hgrow, honly, h₁⟩ := Collapsed.collapsePins hready hinst htunnel hkind
      (fun q hq ↦ hdisjoint hne hq) (hready.wellFormed.nodup_pinsOf tunnel)
      (fun q hq ↦ ⟨hq, hgone hnot q hq⟩) h (hgone hinst) hquiet₁
    have hlive : u.contains tunnel = true := by
      obtain ⟨node, hnode', -⟩ := Option.map_eq_some_iff.1 hkind
      rw [contains, hnode']
      rfl
    have hremoved (q : PinId) : gone' q ∨ q ∈ u.pinsOf tunnel ↔
        q ∈ (removed ++ [tunnel]).flatMap u.pinsOf := by
      rw [List.flatMap_append, List.mem_append, List.flatMap_singleton]
      constructor
      · rintro (hq | hq)
        · exact honly q hq
        · exact .inr hq
      · exact fun hq ↦ hq.imp_left (hgrow q)
    have h₂ := (h₁.remove hlive hnot).congr_gone hremoved
    rw [List.append_cons] at hnodup hfresh ⊢
    refine ih (fun t ht ↦ hrest t (List.mem_cons_of_mem tunnel ht)) hnodup hfresh ?_
      (Nat.le_trans hquiet hfirst)
    rw [collapseTunnel_of_kind hkind', hpinsOf, List.flatMap_append, List.flatMap_singleton]
    rwa [List.flatMap_append, List.flatMap_singleton] at h₂

/-- All the tunnels are collapsed. -/
theorem Collapsed.collapseAll (hready : Ready e.graph inst tunnels)
    (hkinds : ∀ tunnel ∈ tunnels, ∃ entry, e.graph.kind? tunnel = some (.tunnel entry))
    (hnodup : tunnels.Nodup) (hfresh : inst ∉ tunnels)
    (hquiet : (tunnels.foldl (collapseTunnel inst) e).log.numErrors ≤ e.log.numErrors) :
    Collapsed e.graph inst tunnels (tunnels.flatMap e.graph.pinsOf) tunnels
      (· ∈ tunnels.flatMap e.graph.pinsOf) (tunnels.foldl (collapseTunnel inst) e).graph := by
  have hstart : Collapsed e.graph inst tunnels (([] : List NodeId).flatMap e.graph.pinsOf) []
      (· ∈ ([] : List NodeId).flatMap e.graph.pinsOf) e.graph := .refl hready
  refine hstart.collapseTunnels hready (fun tunnel htunnel ↦ ⟨htunnel, ?_⟩) ?_ ?_ hquiet
  · exact hkinds tunnel htunnel
  · exact hnodup
  · exact hfresh

end Quiet

end VisualScript.Expansion
