import VisualScript.Proofs.Compile.Preparation
import VisualScript.Proofs.Graph.Expansion

/-!
# Collapsing reroutes

What arrives at the input of a reroute goes on from its output.  Collapsing a reroute makes wires
of the paths through it, so a pin stays wired as long as no wire to it begins at a reroute.
-/

namespace VisualScript

namespace Graph

/-! ## Where wires begin -/

/-- The node is a reroute with the input `x` and the output `y`. -/
structure RerouteAt (g : Graph) (n : NodeId) (x y : PinId) : Prop where
  kind? : ∃ ty, g.kind? n = some (.knot ty)
  input : g.findPin? n PinName.knotInput (some .input) = some x
  output : g.findPin? n PinName.knotOutput (some .output) = some y

/-- What arrives at `x` goes on from `y`. -/
def Reroutes (g : Graph) (x y : PinId) : Prop := ∃ n, g.RerouteAt n x y

/-- Wires lead from `q` to `p`, maybe through reroutes, and nothing is passed on to `q`. -/
structure BeginsAt (g : Graph) (p q : PinId) : Prop where
  path : WirePath g.Feeds g.Reroutes q p
  first : ∀ x s, g.Reroutes x q → ¬g.Feeds s x

/-- The pin is wired, and the wires to it begin at good outputs only. -/
structure Supplied (good : PinId → Prop) (g : Graph) (p : PinId) : Prop where
  wired : ∃ q, g.Feeds q p
  good : ∀ q, g.BeginsAt p q → good q

variable {g g' : Graph} {n m : NodeId} {a b p q x y : PinId}

namespace RerouteAt

theorem mem_pinsOf (h : g.RerouteAt n x y) : x ∈ g.pinsOf n ∧ y ∈ g.pinsOf n :=
  ⟨List.mem_of_find?_eq_some h.input, List.mem_of_find?_eq_some h.output⟩

theorem contains (h : g.RerouteAt n x y) : g.contains n = true := by
  obtain ⟨ty, hkind⟩ := h.kind?
  obtain ⟨node, hnode, -⟩ := Option.map_eq_some_iff.1 hkind
  rw [Graph.contains, hnode]
  rfl

theorem directionOf? (h : g.RerouteAt n x y) :
    g.directionOf? x = some .input ∧ g.directionOf? y = some .output :=
  ⟨(findPin?_eq_some h.input).2, (findPin?_eq_some h.output).2⟩

/-- No wire leads from the output of a reroute to its input. -/
theorem not_feeds (h : g.RerouteAt n x y) (hwf : g.WellFormed) (hlinked : g.Linked) :
    ¬g.Feeds y x := fun hfeeds ↦ (hlinked.feeds hfeeds).2.2 <|
  ((hwf.mem_pinsOf n x).1 h.mem_pinsOf.1).trans ((hwf.mem_pinsOf n y).1 h.mem_pinsOf.2).symm

theorem keep (h : g'.RerouteAt m x y) (hkeeps : KeepsNode m g g') : g.RerouteAt m x y where
  kind? := hkeeps.kind? ▸ h.kind?
  input := hkeeps.findPin? _ _ ▸ h.input
  output := hkeeps.findPin? _ _ ▸ h.output

theorem kept (h : g.RerouteAt m x y) (hkeeps : KeepsNode m g g') : g'.RerouteAt m x y where
  kind? := hkeeps.kind?.symm ▸ h.kind?
  input := (hkeeps.findPin? _ _).trans h.input
  output := (hkeeps.findPin? _ _).trans h.output

end RerouteAt

/-! ## One reroute less -/

/-- The node `n`, a reroute from `x` to `y`, is gone.  The paths through it are wires, but for
those that join two pins of one node.  Where nothing arrives at it, its defaults go on. -/
structure Bypasses (g : Graph) (n : NodeId) (x y : PinId) (g' : Graph) : Prop where
  wellFormed : g'.WellFormed
  linked : g'.Linked
  order : g'.order = g.order.filter (· ≠ n)
  nodes : ∀ m, m ≠ n → g'.node? m = g.node? m
  feeds : ∀ p q, g'.Feeds p q ↔ p ∉ g.pinsOf n ∧ q ∉ g.pinsOf n ∧
    (g.Feeds p q ∨ g.Feeds p x ∧ g.Feeds y q ∧ g.ownerOf? p ≠ g.ownerOf? q)
  faces : ∀ p ∉ g.pinsOf n, (g'.pin? p).map Pin.unwired = (g.pin? p).map Pin.unwired
  stays : ∀ p ∉ g.pinsOf n, ¬g.Feeds y p → g'.defaultsOf? p = g.defaultsOf? p
  literal : ∀ p ∉ g.pinsOf n, (∀ s, ¬g.Feeds s x) → g.Feeds y p →
    g'.defaultsOf? p = g.defaultsOf? x

/-- A wire from `a` to `x` and a wire from `y` to `b` cannot be joined, as they are wires of one
node. -/
def Refuses (g : Graph) (x y a b : PinId) : Prop :=
  g.Feeds a x ∧ g.Feeds y b ∧ g.ownerOf? a = g.ownerOf? b

theorem Bypasses.keepsNode (h : Bypasses g n x y g') (hwf : g.WellFormed) (hm : m ≠ n) :
    KeepsNode m g g' where
  kind? := by rw [kind?, h.nodes m hm, kind?]
  pinsOf := by rw [pinsOf, h.nodes m hm, pinsOf]
  faces p hp := h.faces p fun hp' ↦ hm (hwf.eq_of_mem_pinsOf hp hp')

/-- The node `n`, a reroute from `x` to `y`, is gone, and the paths through it are wires. -/
structure Collapses (g : Graph) (n : NodeId) (x y : PinId) (g' : Graph) : Prop where
  wellFormed : g'.WellFormed
  linked : g'.Linked
  order : g'.order = g.order.filter (· ≠ n)
  keeps : ∀ m, m ≠ n → KeepsNode m g g'
  feeds : ∀ p q, g'.Feeds p q ↔
    p ∉ g.pinsOf n ∧ q ∉ g.pinsOf n ∧ (g.Feeds p q ∨ g.Feeds p x ∧ g.Feeds y q)

namespace Collapses

variable (h : Collapses g n x y g')
include h

theorem ne_of_rerouteAt {a b : PinId} (hm : g'.RerouteAt m a b) : m ≠ n := by
  rintro rfl
  have hmem : m ∈ g'.order := (h.wellFormed.mem_order m).2 hm.contains
  rw [h.order, List.mem_filter] at hmem
  simpa using hmem.2

variable (hwf : g.WellFormed) (hlinked : g.Linked) (hreroute : g.RerouteAt n x y)
include hreroute

/-- Paths were paths before. -/
theorem path (hpath : WirePath g'.Feeds g'.Reroutes q p) : WirePath g.Feeds g.Reroutes q p := by
  have hwire {a b : PinId} (hfeeds : g'.Feeds a b) : WirePath g.Feeds g.Reroutes a b := by
    obtain ⟨-, -, hold | ⟨hin, hout⟩⟩ := (h.feeds a b).1 hfeeds
    · exact .wire hold
    · exact .through hin ⟨n, hreroute⟩ (.wire hout)
  induction hpath with
  | wire hfeeds => exact hwire hfeeds
  | through hfeeds hjoint _ ih =>
    obtain ⟨m, hm⟩ := hjoint
    exact (hwire hfeeds).trans ⟨m, hm.keep (h.keeps m (h.ne_of_rerouteAt hm))⟩ ih

include hwf hlinked

/-- A pin that is supplied stays so, as no good output is on the reroute. -/
theorem supplied {good : PinId → Prop} (hsupplied : Supplied good g p) (hp : p ∉ g.pinsOf n)
    (hgood : ∀ q ∈ g.pinsOf n, ¬good q) : Supplied good g' p := by
  obtain ⟨hx, hy⟩ := hreroute.mem_pinsOf
  -- a wire that leaves the reroute leaves it through `y`, and something arrives at `x`
  have hpass {q : PinId} (hq : q ∈ g.pinsOf n) (hpath : WirePath g.Feeds g.Reroutes q p) :
      q = y ∧ ∃ s, s ∉ g.pinsOf n ∧ g.Feeds s x := by
    have hnot : ¬g.BeginsAt p q := fun hbegins ↦ hgood q hq (hsupplied.good q hbegins)
    obtain ⟨a, s, ⟨m, hm⟩, hs⟩ : ∃ a s, g.Reroutes a q ∧ g.Feeds s a := by
      by_contra hnone
      exact hnot ⟨hpath, fun a s ha hs ↦ hnone ⟨a, s, ha, hs⟩⟩
    obtain rfl : m = n := hwf.eq_of_mem_pinsOf hm.mem_pinsOf.2 hq
    cases hm.input.symm.trans hreroute.input
    cases hm.output.symm.trans hreroute.output
    refine ⟨rfl, s, fun hmem ↦ (hlinked.feeds hs).2.2 ?_, hs⟩
    exact ((hwf.mem_pinsOf m _).1 hx).trans ((hwf.mem_pinsOf m s).1 hmem).symm
  refine ⟨?_, fun q hbegins ↦ ?_⟩
  · obtain ⟨q, hq⟩ := hsupplied.wired
    by_cases hmem : q ∈ g.pinsOf n
    · obtain ⟨rfl, s, hs, hsx⟩ := hpass hmem (.wire hq)
      exact ⟨s, (h.feeds s p).2 ⟨hs, hp, .inr ⟨hsx, hq⟩⟩⟩
    · exact ⟨q, (h.feeds q p).2 ⟨hmem, hp, .inl hq⟩⟩
  · have hpath := h.path hreroute hbegins.path
    obtain ⟨_, hfirst⟩ := hbegins.path.exists_first
    have hq : q ∉ g.pinsOf n := ((h.feeds q _).1 hfirst).1
    refine hsupplied.good q ⟨hpath, fun a s ⟨m, hm⟩ hs ↦ ?_⟩
    have hne : m ≠ n := by
      rintro rfl
      exact hq hm.mem_pinsOf.2
    have ha : a ∉ g.pinsOf n := fun hmem ↦
      hne (hwf.eq_of_mem_pinsOf hm.mem_pinsOf.1 hmem)
    have hm' : g'.Reroutes a q := ⟨m, hm.kept (h.keeps m hne)⟩
    by_cases hmem : s ∈ g.pinsOf n
    · obtain ⟨rfl, s', hs', hsx⟩ := hpass hmem (.through hs ⟨m, hm⟩ hpath)
      exact hbegins.first a s' hm' ((h.feeds s' a).2 ⟨hs', ha, .inr ⟨hsx, hs⟩⟩)
    · exact hbegins.first a s hm' ((h.feeds s a).2 ⟨hmem, ha, .inl hs⟩)

end Collapses

/-! ## Wires that are changed -/

/-- Only links and defaults are changed, and these are the wires. -/
structure Rewired (g g' : Graph) (wires : PinId → PinId → Prop) : Prop where
  faces : SameFaces g g'
  linked : g'.Linked
  feeds : ∀ p q, g'.Feeds p q ↔ wires p q

theorem feeds_breakLink (hlinked : g.Linked) (hy : g.directionOf? y = some .output) (t : PinId) :
    (g.breakLink y t).Feeds p q ↔ g.Feeds p q ∧ ¬(p = y ∧ q = t) := by
  rw [feeds_iff, feeds_iff, (sameFaces_breakLink g y t).directionOf?_eq, mem_linksOf_breakLink,
    and_assoc]
  refine and_congr_right fun hp ↦ and_congr_right fun hq ↦ and_iff_left ?_
  -- a wire arrives at an input
  rintro ⟨rfl, rfl⟩
  exact absurd (hy.symm.trans (hlinked.feeds (feeds_iff.2 ⟨hp, hq⟩)).1) (by decide)

theorem exists_pin?_of_directionOf? {d : Direction} (h : g.directionOf? p = some d) :
    ∃ pin, g.pin? p = some pin ∧ pin.direction = d ∧ g.ownerOf? p = some pin.owner := by
  obtain ⟨pin, hpin, hdirection⟩ := directionOf?_eq_some.1 h
  exact ⟨pin, hpin, hdirection, ownerOf?_of_pin? hpin⟩

/-- An output is linked to an input unless both are pins of one node. -/
theorem makeLink_cases (ha : g.directionOf? a = some .output) (hb : g.directionOf? b = some .input) :
    (g.ownerOf? a ≠ g.ownerOf? b ∧ ∃ g', g.makeLink a b = .ok g') ∨
      (g.ownerOf? a = g.ownerOf? b ∧ ∃ e, g.makeLink a b = .error e) := by
  obtain ⟨pa, hpa, hda, howner⟩ := exists_pin?_of_directionOf? ha
  obtain ⟨pb, hpb, hdb, howner'⟩ := exists_pin?_of_directionOf? hb
  cases hmake : g.makeLink a b with
  | ok g' =>
    obtain ⟨_, _, hpa', hpb', -, hne, -⟩ := makeLink_eq_ok hmake
    cases hpa.symm.trans hpa'
    cases hpb.symm.trans hpb'
    refine .inl ⟨?_, g', rfl⟩
    rw [howner, howner']
    exact fun heq ↦ hne (Option.some.inj heq)
  | error e =>
    refine .inr ⟨?_, e, rfl⟩
    rw [howner, howner']
    by_contra hne
    have hne' : pa.owner ≠ pb.owner := fun heq ↦ hne (congrArg some heq)
    have hdirection : pa.direction ≠ pb.direction := by
      rw [hda, hdb]
      decide
    obtain ⟨g', hok⟩ := (joins_of_pin? hpa hpb hne'.symm hdirection.symm).exists_makeLink
    rw [hmake] at hok
    cases hok

end Graph

/-! ## Collapsing -/

theorem FunctionState.EditsGraph.numErrors_le {s s' : FunctionState} (h : s.EditsGraph s') :
    s.log.numErrors ≤ s'.log.numErrors := by
  obtain ⟨g, log, rfl, hle, -⟩ := h
  exact hle

namespace Knot

open VisualScript.Graph FunctionState

variable {n : NodeId} {s : FunctionState} {x y t : PinId}

/-- Only links and defaults are changed, these are the wires, and an error is logged for each
wire that is refused. -/
structure Patches (s s' : FunctionState) (wires : PinId → PinId → Prop)
    (refused : List (PinId × PinId)) : Prop where
  rewired : Rewired s.graph s'.graph wires
  errors : s'.log.numErrors = s.log.numErrors + refused.length

/-- The sources that cannot be wired to the target, as they are pins of its node. -/
def refusals (g : Graph) (sources : List PinId) (t : PinId) : List (PinId × PinId) :=
  (sources.filter fun a ↦ g.ownerOf? a = g.ownerOf? t).map (·, t)

theorem refusals_congr {g g' : Graph} (hfaces : SameFaces g g') (sources : List PinId) (t : PinId) :
    refusals g' sources t = refusals g sources t := by
  simp only [refusals, hfaces.ownerOf?_eq]

theorem mem_refusals {g : Graph} {sources : List PinId} {t a b : PinId} :
    (a, b) ∈ refusals g sources t ↔ a ∈ sources ∧ b = t ∧ g.ownerOf? a = g.ownerOf? t := by
  simp only [refusals, List.mem_map, List.mem_filter, decide_eq_true_eq, Prod.mk.injEq]
  constructor
  · rintro ⟨_, ⟨ha, howner⟩, rfl, rfl⟩
    exact ⟨ha, rfl, howner⟩
  · rintro ⟨ha, rfl, howner⟩
    exact ⟨a, ⟨ha, howner⟩, rfl, rfl⟩

/-- The target is wired to those sources that are pins of other nodes. -/
theorem patches_bridges {sources : List PinId} (hlinked : s.graph.Linked)
    (hout : ∀ a ∈ sources, s.graph.directionOf? a = some .output)
    (hin : s.graph.directionOf? t = some .input) :
    Patches s (sources.foldl (bridge n t) s)
      (fun p q ↦ s.graph.Feeds p q ∨ p ∈ sources ∧ q = t ∧ s.graph.ownerOf? p ≠ s.graph.ownerOf? q)
      (refusals s.graph sources t) := by
  induction sources generalizing s with
  | nil => exact ⟨⟨.refl _, hlinked, fun p q ↦ by simp⟩, rfl⟩
  | cons a sources ih =>
    rw [List.foldl_cons]
    have ha := hout a List.mem_cons_self
    have hrest := fun b hb ↦ hout b (List.mem_cons_of_mem a hb)
    rcases makeLink_cases ha hin with ⟨hne, g, hmake⟩ | ⟨heq, e, hmake⟩
    · have hbridge : bridge n t s a = { s with ctx.graph := g } := by
        unfold bridge
        rw [hmake]
      rw [hbridge]
      have hfaces := sameFaces_makeLink hmake
      obtain ⟨⟨hfaces', hlinked', hfeeds⟩, herrors⟩ := ih (s := { s with ctx.graph := g })
        (hlinked.makeLink hmake) (fun b hb ↦ (hfaces.directionOf?_eq b).trans (hrest b hb))
        ((hfaces.directionOf?_eq t).trans hin)
      rw [refusals_congr hfaces] at herrors
      refine ⟨⟨hfaces.trans hfaces', hlinked', fun p q ↦ ?_⟩, herrors.trans ?_⟩
      · rw [hfeeds, feeds_makeLink hlinked hmake ha, hfaces.ownerOf?_eq, hfaces.ownerOf?_eq,
          List.mem_cons]
        constructor
        · rintro ((hold | ⟨rfl, rfl⟩) | ⟨hmem, rfl, hpq⟩)
          · exact .inl hold
          · exact .inr ⟨.inl rfl, rfl, hne⟩
          · exact .inr ⟨.inr hmem, rfl, hpq⟩
        · rintro (hold | ⟨rfl | hmem, rfl, hpq⟩)
          · exact .inl (.inl hold)
          · exact .inl (.inr ⟨rfl, rfl⟩)
          · exact .inr ⟨hmem, rfl, hpq⟩
      · rw [refusals, refusals, List.filter_cons_of_neg (by simpa using hne)]
    · obtain ⟨s', hs', hbridge⟩ : ∃ s' : FunctionState, s' = s.error
          s!"Failed to collapse reroute node @@: {e.message}" [s.graph.nodeToken n] ∧
            bridge n t s a = s' := by
        unfold bridge
        rw [hmake]
        exact ⟨_, rfl, rfl⟩
      have hgraph : s'.graph = s.graph := by rw [hs']; rfl
      have hlog : s'.log.numErrors = s.log.numErrors + 1 := by rw [hs']; rfl
      obtain ⟨hrewired, herrors⟩ := ih (s := s') (hgraph ▸ hlinked) (hgraph ▸ hrest) (hgraph ▸ hin)
      rw [hgraph] at hrewired herrors
      rw [hbridge]
      refine ⟨⟨hrewired.faces, hrewired.linked, fun p q ↦ (hrewired.feeds p q).trans ?_⟩, ?_⟩
      · -- the source that is refused is a pin of the node of the target
        refine or_congr_right ?_
        rw [List.mem_cons]
        constructor
        · rintro ⟨hmem, hpq⟩
          exact ⟨.inr hmem, hpq⟩
        · rintro ⟨rfl | hmem, rfl, hpq⟩
          · exact absurd heq hpq
          · exact ⟨hmem, rfl, hpq⟩
      · rw [herrors, hlog, refusals, refusals, List.filter_cons_of_pos (by simpa using heq),
          List.map_cons, List.length_cons]
        omega

/-- A target is taken off the output and wired to the sources on other nodes. -/
theorem patches_release {sources : List PinId} (value : String) (object : Option String)
    (hlinked : s.graph.Linked) (hy : s.graph.directionOf? y = some .output)
    (hout : ∀ a ∈ sources, s.graph.directionOf? a = some .output)
    (hin : s.graph.directionOf? t = some .input) :
    Patches s (release n y sources value object s t)
      (fun p q ↦ s.graph.Feeds p q ∧ ¬(p = y ∧ q = t) ∨
        p ∈ sources ∧ q = t ∧ s.graph.ownerOf? p ≠ s.graph.ownerOf? q)
      (refusals s.graph sources t) := by
  have hbroken := sameFaces_breakLink s.graph y t
  unfold release
  dsimp only
  obtain ⟨hfaces, hlinked', hfeeds⟩ : Rewired s.graph (if sources.isEmpty = true then
      (s.graph.breakLink y t).setDefaults t value object else s.graph.breakLink y t) fun p q ↦
        s.graph.Feeds p q ∧ ¬(p = y ∧ q = t) := by
    split
    · refine ⟨hbroken.trans (sameFaces_setDefaults _ _ _ _),
        (hlinked.breakLink y t).modifyPin t fun _ ↦ ⟨rfl, rfl, rfl⟩, fun p q ↦ ?_⟩
      exact (feeds_setDefaults _ _ _ _).trans (feeds_breakLink hlinked hy t)
    · exact ⟨hbroken, hlinked.breakLink y t, fun p q ↦ feeds_breakLink hlinked hy t⟩
  generalize (if sources.isEmpty = true then
    (s.graph.breakLink y t).setDefaults t value object else s.graph.breakLink y t) = g at *
  obtain ⟨⟨hfaces', hlinked'', hfeeds'⟩, herrors⟩ :=
    patches_bridges (n := n) (s := { s with ctx.graph := g }) hlinked'
      (fun a ha ↦ (hfaces.directionOf?_eq a).trans (hout a ha)) ((hfaces.directionOf?_eq t).trans hin)
  refine ⟨⟨hfaces.trans hfaces', hlinked'', fun p q ↦ ?_⟩, herrors.trans ?_⟩
  · rw [hfeeds', ← hfeeds, hfaces.ownerOf?_eq, hfaces.ownerOf?_eq]
  · rw [refusals_congr hfaces]

/-- All targets are taken off the output and wired to the sources on other nodes. -/
theorem patches_releases {sources targets : List PinId} {value : String} {object : Option String}
    (hlinked : s.graph.Linked) (hy : s.graph.directionOf? y = some .output)
    (hout : ∀ a ∈ sources, s.graph.directionOf? a = some .output) (hloop : y ∉ sources)
    (hin : ∀ t ∈ targets, s.graph.directionOf? t = some .input) :
    Patches s (targets.foldl (release n y sources value object) s)
      (fun p q ↦ s.graph.Feeds p q ∧ ¬(p = y ∧ q ∈ targets) ∨
        p ∈ sources ∧ q ∈ targets ∧ s.graph.ownerOf? p ≠ s.graph.ownerOf? q)
      (targets.flatMap (refusals s.graph sources)) := by
  induction targets generalizing s with
  | nil => exact ⟨⟨.refl _, hlinked, fun p q ↦ by simp⟩, rfl⟩
  | cons t targets ih =>
    rw [List.foldl_cons]
    obtain ⟨⟨hfaces, hlinked', hfeeds⟩, herrors⟩ :=
      patches_release (n := n) value object hlinked hy hout (hin t List.mem_cons_self)
    obtain ⟨⟨hfaces', hlinked'', hfeeds'⟩, herrors'⟩ := ih hlinked'
      ((hfaces.directionOf?_eq y).trans hy)
      (fun a ha ↦ (hfaces.directionOf?_eq a).trans (hout a ha))
      (fun b hb ↦ (hfaces.directionOf?_eq b).trans (hin b (List.mem_cons_of_mem t hb)))
    have hne : ∀ p ∈ sources, p ≠ y := by
      rintro p hp rfl
      exact hloop hp
    simp only [hfaces.ownerOf?_eq] at hfeeds'
    refine ⟨⟨hfaces.trans hfaces', hlinked'', fun p q ↦ ?_⟩, ?_⟩
    · rw [hfeeds', hfeeds, List.mem_cons]
      grind
    · have hsame : refusals (release n y sources value object s t).graph sources =
          refusals s.graph sources := funext (refusals_congr hfaces sources)
      rw [herrors', herrors, hsame, List.flatMap_cons, List.length_append, Nat.add_assoc]

theorem defaultsOf?_bridges (sources : List PinId) (p : PinId) :
    (sources.foldl (bridge n t) s).graph.defaultsOf? p = s.graph.defaultsOf? p := by
  induction sources generalizing s with
  | nil => rfl
  | cons a sources ih =>
    rw [List.foldl_cons, ih]
    unfold bridge
    split
    · next hmake => exact defaultsOf?_makeLink hmake p
    · rfl

/-- Without a source the targets take the defaults of the reroute. -/
theorem defaultsOf?_releases (sources targets : List PinId) (value : String)
    (object : Option String) (p : PinId) :
    (targets.foldl (release n y sources value object) s).graph.defaultsOf? p =
      if sources = [] ∧ p ∈ targets then (s.graph.defaultsOf? p).map fun _ ↦ (value, object)
      else s.graph.defaultsOf? p := by
  induction targets generalizing s with
  | nil => simp
  | cons t targets ih =>
    have hrelease : (release n y sources value object s t).graph.defaultsOf? p =
        if sources = [] ∧ t = p then (s.graph.defaultsOf? p).map fun _ ↦ (value, object)
        else s.graph.defaultsOf? p := by
      unfold release
      dsimp only
      rw [defaultsOf?_bridges]
      cases sources with
      | nil =>
        refine (defaultsOf?_setDefaults _ t p value object).trans ?_
        simp only [defaultsOf?_breakLink, true_and]
      | cons a sources =>
        refine (defaultsOf?_breakLink s.graph y t p).trans ?_
        simp
    rw [List.foldl_cons, ih, hrelease]
    by_cases hsources : sources = []
    · by_cases htp : t = p
      · subst htp
        simp [hsources, Option.map_map, Function.comp_def]
      · simp [hsources, htp, Ne.symm htp]
    · simp [hsources]

/-- A reroute moves its targets to its sources, or gives them its defaults, and goes. -/
theorem exists_transform_eq (hreroute : s.graph.RerouteAt n x y) :
    ∃ (value : String) (object : Option String) (s' : FunctionState),
      s.graph.defaultsOf? x = some (value, object) ∧
        s' = (s.graph.linksOf y).foldl (release n y (s.graph.linksOf x) value object) s ∧
          transform s n = { s' with ctx.graph := s'.graph.removeNode n } := by
  obtain ⟨pin, hpin, -⟩ := directionOf?_eq_some.1 hreroute.directionOf?.1
  refine ⟨pin.defaultValue, pin.defaultObject, _, ?_, rfl, ?_⟩
  · rw [defaultsOf?, hpin]
    rfl
  · unfold transform
    rw [hreroute.input, hreroute.output]
    dsimp only
    rw [hpin]

theorem bypasses_transform (hwf : s.graph.WellFormed) (hlinked : s.graph.Linked)
    (hreroute : s.graph.RerouteAt n x y) :
    Bypasses s.graph n x y (transform s n).graph ∧ ∃ refused : List (PinId × PinId),
      (transform s n).log.numErrors = s.log.numErrors + refused.length ∧
        ∀ a b, (a, b) ∈ refused ↔ s.graph.Refuses x y a b := by
  obtain ⟨hx, hy⟩ := hreroute.directionOf?
  have hsources (a : PinId) : a ∈ s.graph.linksOf x ↔ s.graph.Feeds a x :=
    hlinked.mem_linksOf_input hx
  have htargets (t : PinId) : t ∈ s.graph.linksOf y ↔ s.graph.Feeds y t := mem_linksOf_output hy
  obtain ⟨value, object, s', hdefaults, hs', htransform⟩ := exists_transform_eq hreroute
  obtain ⟨⟨hfaces, hlinked', hfeeds⟩, herrors⟩ : Patches s s' (fun p q ↦
      s.graph.Feeds p q ∧ ¬(p = y ∧ q ∈ s.graph.linksOf y) ∨ p ∈ s.graph.linksOf x ∧
        q ∈ s.graph.linksOf y ∧ s.graph.ownerOf? p ≠ s.graph.ownerOf? q)
      ((s.graph.linksOf y).flatMap (refusals s.graph (s.graph.linksOf x))) := by
    rw [hs']
    refine patches_releases hlinked hy (fun a ha ↦ ?_) (fun hmem ↦ ?_) (fun t ht ↦ ?_)
    · exact (feeds_iff.1 ((hsources a).1 ha)).1
    · exact hreroute.not_feeds hwf hlinked ((hsources y).1 hmem)
    · exact (hlinked.feeds ((htargets t).1 ht)).1
  have hwf' := hfaces.sameBooks.wellFormed hwf
  have hcontains : s'.graph.contains n = true := by
    rw [contains, hfaces.nodes]
    exact hreroute.contains
  have hdefaults' (p : PinId) (hp : p ∉ s.graph.pinsOf n) :
      (s'.graph.removeNode n).defaultsOf? p = if s.graph.linksOf x = [] ∧ p ∈ s.graph.linksOf y then
        (s.graph.defaultsOf? p).map fun _ ↦ (value, object) else s.graph.defaultsOf? p := by
    rw [defaultsOf?_removeNode hcontains (hfaces.pinsOf_eq n ▸ hp), hs', defaultsOf?_releases]
  rw [htransform]
  refine ⟨?_, _, herrors, fun a b ↦ ?_⟩
  · refine
      { wellFormed := hwf'.removeNode n
        linked := hlinked'.removeNode n
        order := hfaces.order ▸ order_removeNode hcontains
        nodes := fun m hm ↦ (node?_removeNode_of_ne hcontains hm).trans (hfaces.nodes m)
        feeds := fun p q ↦ ?_
        faces := fun p hp ↦ ?_
        stays := fun p hp hfeeds ↦ ?_
        literal := fun p hp hnone hfeeds ↦ ?_ }
    · refine (feeds_removeNode hcontains hlinked').trans ?_
      have hne : p ∉ s.graph.pinsOf n → p ≠ y := by
        rintro hp rfl
        exact hp hreroute.mem_pinsOf.2
      rw [hfeeds, hfaces.pinsOf_eq, hsources, htargets]
      tauto
    · exact (unwired_removeNode hcontains (hfaces.pinsOf_eq n ▸ hp)).trans (hfaces.pins p)
    · rw [hdefaults' p hp, if_neg fun h ↦ hfeeds ((htargets p).1 h.2)]
    · have hempty : s.graph.linksOf x = [] :=
        List.eq_nil_iff_forall_not_mem.2 fun a ha ↦ hnone a ((hsources a).1 ha)
      obtain ⟨pin, hpin, -⟩ := directionOf?_eq_some.1 (hlinked.feeds hfeeds).1
      rw [hdefaults' p hp, if_pos ⟨hempty, (htargets p).2 hfeeds⟩, hdefaults, defaultsOf?, hpin]
      rfl
  · simp only [List.mem_flatMap, mem_refusals, hsources, htargets, Refuses]
    constructor
    · rintro ⟨t, hyt, hax, rfl, howner⟩
      exact ⟨hax, hyt, howner⟩
    · rintro ⟨hax, hyb, howner⟩
      exact ⟨b, hyb, hax, rfl, howner⟩

/-- A reroute that is collapsed without an error is gone, and the paths through it are wires. -/
theorem collapses_transform (hwf : s.graph.WellFormed) (hlinked : s.graph.Linked)
    (hreroute : s.graph.RerouteAt n x y)
    (hlog : (transform s n).log.numErrors ≤ s.log.numErrors) :
    Collapses s.graph n x y (transform s n).graph := by
  obtain ⟨h, refused, herrors, hrefused⟩ := bypasses_transform hwf hlinked hreroute
  refine ⟨h.wellFormed, h.linked, h.order, fun m ↦ h.keepsNode hwf, fun p q ↦ ?_⟩
  have hquiet : ¬s.graph.Refuses x y p q := fun hrefuses ↦ by
    have hpos := List.length_pos_of_mem ((hrefused p q).2 hrefuses)
    omega
  rw [h.feeds p q]
  unfold Refuses at hquiet
  tauto

end Knot

/-! ## Collapsing all reroutes -/

namespace Graph

/-- The reroutes among the nodes `done` were collapsed, and nothing else was done. -/
structure Collapsed (g : Graph) (done : List NodeId) (g' : Graph) : Prop where
  wellFormed : g'.WellFormed
  linked : g'.Linked
  keeps : ∀ m ∈ g'.order, KeepsNode m g g'
  gone : ∀ m ∈ done, ∀ x y, ¬g'.RerouteAt m x y
  supplied : ∀ {good : PinId → Prop} {m : NodeId} {p : PinId}, m ∈ g'.order → p ∈ g'.pinsOf m →
    (∀ n x y, g.RerouteAt n x y → ∀ q ∈ g.pinsOf n, ¬good q) → Supplied good g p →
      Supplied good g' p

variable {g g' g'' : Graph} {n m : NodeId} {x y : PinId}

theorem RerouteAt.mem_order (h : g.RerouteAt n x y) (hwf : g.WellFormed) : n ∈ g.order :=
  (hwf.mem_order n).2 h.contains

namespace Collapsed

theorem refl (hwf : g.WellFormed) (hlinked : g.Linked) {done : List NodeId}
    (hdone : ∀ m ∈ done, ∀ x y, ¬g.RerouteAt m x y) : Collapsed g done g :=
  ⟨hwf, hlinked, fun m _ ↦ .refl m g, hdone, fun _ _ _ h ↦ h⟩

theorem mem_order {done : List NodeId} (h : Collapsed g done g') (hwf : g.WellFormed)
    (hm : m ∈ g'.order) : m ∈ g.order := by
  obtain ⟨node, hnode⟩ := Option.isSome_iff_exists.1 ((h.wellFormed.mem_order m).1 hm)
  have hkind : g.kind? m = some node.kind := by
    rw [← (h.keeps m hm).kind?, kind?, hnode]
    rfl
  exact hwf.mem_order_of_kind? hkind

theorem trans {done done' : List NodeId} (h : Collapsed g done g')
    (h' : Collapsed g' done' g'') : Collapsed g (done ++ done') g'' where
  wellFormed := h'.wellFormed
  linked := h'.linked
  keeps m hm := (h.keeps m (h'.mem_order h.wellFormed hm)).trans (h'.keeps m hm)
  gone m hm x y hreroute := by
    rcases List.mem_append.1 hm with hold | hnew
    · have hkeeps := h'.keeps m (hreroute.mem_order h'.wellFormed)
      exact h.gone m hold x y (hreroute.keep hkeeps)
    · exact h'.gone m hnew x y hreroute
  supplied hm hp hgood hsupplied := by
    have hmem := h'.mem_order h.wellFormed hm
    refine h'.supplied hm hp (fun n x y hreroute q hq ↦ ?_)
      (h.supplied hmem ((h'.keeps _ hm).pinsOf ▸ hp) hgood hsupplied)
    have hkeeps := h.keeps n (hreroute.mem_order h.wellFormed)
    exact hgood n x y (hreroute.keep hkeeps) q (hkeeps.pinsOf ▸ hq)

theorem of_collapses (h : Collapses g n x y g') (hwf : g.WellFormed) (hlinked : g.Linked)
    (hreroute : g.RerouteAt n x y) : Collapsed g [n] g' where
  wellFormed := h.wellFormed
  linked := h.linked
  keeps m hm := h.keeps m fun heq ↦ by
    rw [h.order, List.mem_filter] at hm
    simp [heq] at hm
  gone m hm a b hm' := h.ne_of_rerouteAt hm' (List.mem_singleton.1 hm)
  supplied {good m p} hm hp hgood hsupplied := by
    have hne : m ≠ n := fun heq ↦ by
      rw [h.order, List.mem_filter] at hm
      simp [heq] at hm
    rw [(h.keeps m hne).pinsOf] at hp
    refine h.supplied hwf hlinked hreroute hsupplied (fun hp' ↦ hne ?_) (hgood n x y hreroute)
    exact hwf.eq_of_mem_pinsOf hp hp'

end Collapsed

end Graph

namespace FunctionState

open VisualScript.Graph

variable {env : CompileEnv} {s : FunctionState}

/-- The turn of a node when nodes expand. -/
def transformNode (env : CompileEnv) (s : FunctionState) (n : NodeId) : FunctionState :=
  match s.graph.kind? n with
  | some kind => if env.handles kind then kind.transform s n else s
  | none => s

theorem transformNodes_eq (env : CompileEnv) (s : FunctionState) :
    s.transformNodes env = s.graph.order.foldl (transformNode env) s := rfl

theorem editsGraph_transformNode (env : CompileEnv) (s : FunctionState) (n : NodeId) :
    EditsGraph s (transformNode env s n) := by
  unfold transformNode
  split
  · split
    · exact editsGraph_transform _ s n
    · exact .refl s
  · exact .refl s

/-- In its turn a reroute is collapsed, and any other node does nothing. -/
theorem collapsed_transformNode (henv : env.HandlesAll) (hwf : s.graph.WellFormed)
    (hlinked : s.graph.Linked) {n : NodeId}
    (hlog : (transformNode env s n).log.numErrors ≤ s.log.numErrors) :
    Collapsed s.graph [n] (transformNode env s n).graph := by
  by_cases hreroute : ∃ x y, s.graph.RerouteAt n x y
  · obtain ⟨x, y, hreroute⟩ := hreroute
    obtain ⟨ty, hkind⟩ := hreroute.kind?
    have hturn : transformNode env s n = Knot.transform s n := by
      simp only [transformNode, hkind, henv (.knot ty)]
      rfl
    rw [hturn] at hlog ⊢
    exact .of_collapses (Knot.collapses_transform hwf hlinked hreroute hlog) hwf hlinked hreroute
  · have hsame : transformNode env s n = s := by
      unfold transformNode
      split
      · next kind hkind =>
        split
        · cases kind with
          | knot ty =>
            show Knot.transform s n = s
            unfold Knot.transform
            split
            · next x y hx hy => exact absurd ⟨x, y, ⟨ty, hkind⟩, hx, hy⟩ hreroute
            · rfl
          | _ => rfl
        · rfl
      · rfl
    rw [hsame]
    refine .refl hwf hlinked fun m hm x y h ↦ hreroute ?_
    obtain rfl := List.mem_singleton.1 hm
    exact ⟨x, y, h⟩

theorem collapsed_transformNodes (henv : env.HandlesAll) (hwf : s.graph.WellFormed)
    (hlinked : s.graph.Linked) (hlog : (s.transformNodes env).log.numErrors ≤ s.log.numErrors) :
    Collapsed s.graph s.graph.order (s.transformNodes env).graph := by
  rw [transformNodes_eq] at hlog ⊢
  generalize s.graph.order = list at hlog ⊢
  induction list generalizing s with
  | nil => exact .refl hwf hlinked fun m hm ↦ absurd hm List.not_mem_nil
  | cons n list ih =>
    have hfirst := (editsGraph_transformNode env s n).numErrors_le
    have hrest := (EditsGraph.foldl (editsGraph_transformNode env) list
      (transformNode env s n)).numErrors_le
    rw [List.foldl_cons] at hlog ⊢
    have hturn := collapsed_transformNode henv hwf hlinked (Nat.le_trans hrest hlog)
    exact hturn.trans (ih hturn.wellFormed hturn.linked (Nat.le_trans hlog hfirst))

/-- No reroute is left, so what supplies a pin is wired to it. -/
theorem feeds_transformNodes (henv : env.HandlesAll) (hwf : s.graph.WellFormed)
    (hlinked : s.graph.Linked) (hlog : (s.transformNodes env).log.numErrors ≤ s.log.numErrors)
    {good : PinId → Prop} (hgood : ∀ n x y, s.graph.RerouteAt n x y → ∀ q ∈ s.graph.pinsOf n, ¬good q)
    {n : NodeId} (hn : n ∈ (s.transformNodes env).graph.order) {p : PinId}
    (hp : p ∈ (s.transformNodes env).graph.pinsOf n) (hsupplied : Supplied good s.graph p) :
    (∃ q, (s.transformNodes env).graph.Feeds q p) ∧
      ∀ q, (s.transformNodes env).graph.Feeds q p → good q := by
  have hcollapsed := collapsed_transformNodes henv hwf hlinked hlog
  obtain ⟨hwired, hbegins⟩ := hcollapsed.supplied hn hp hgood hsupplied
  refine ⟨hwired, fun q hq ↦ hbegins q ⟨.wire hq, fun x s' ⟨m, hm⟩ _ ↦ ?_⟩⟩
  exact hcollapsed.gone m (hcollapsed.mem_order hwf (hm.mem_order hcollapsed.wellFormed)) x q hm

end FunctionState

end VisualScript
