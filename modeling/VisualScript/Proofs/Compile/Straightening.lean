import VisualScript.Proofs.Compile.Reroutes
import VisualScript.Proofs.Graph.Linking
import Mathlib.Data.List.Perm.Subperm

/-!
# Straightening wires

Reroutes are collapsed one after another, each while others of its chain still stand.  Whatever
the order, a path through reroutes ends as a wire.  A path that joins two pins of one node cannot
become a wire: it is dropped with an error.  An input at the end of a chain to which nothing is
wired stands for the defaults of the first reroute.
-/

namespace VisualScript

/-! ## Paths over one reroute less -/

namespace Graph

variable {g g' : Graph} {n m : NodeId} {a b p q t x y : PinId}

/-- Every reroute has its input, its output and no other pin. -/
def PlainReroutes (g : Graph) : Prop :=
  ∀ n ty, g.kind? n = some (.knot ty) → ∃ x y, g.RerouteAt n x y ∧ ∀ p ∈ g.pinsOf n, p = x ∨ p = y

/-- The reroutes of a graph are plain if those in the slots in use are. -/
theorem plainReroutes_iff : g.PlainReroutes ↔ ∀ i < g.nodes.size, ∀ kind ∈ g.kind? ⟨i⟩,
    kind.tag = .knot → ∃ x ∈ g.findPin? ⟨i⟩ PinName.knotInput (some .input),
      ∃ y ∈ g.findPin? ⟨i⟩ PinName.knotOutput (some .output),
        ∀ p ∈ g.pinsOf ⟨i⟩, p = x ∨ p = y := by
  constructor
  · intro h i _ kind hkind htag
    cases kind with
    | knot ty =>
      obtain ⟨x, y, hreroute, honly⟩ := h ⟨i⟩ ty hkind
      exact ⟨x, hreroute.input, y, hreroute.output, honly⟩
    | _ => cases htag
  · intro h n ty hkind
    obtain ⟨node, hnode, -⟩ := Option.map_eq_some_iff.1 hkind
    have hlt : n.index < g.nodes.size := lt_of_isSome_node? (n := n) (by rw [hnode]; rfl)
    obtain ⟨x, hx, y, hy, honly⟩ := h n.index hlt (.knot ty) hkind rfl
    exact ⟨x, y, ⟨⟨ty, hkind⟩, hx, hy⟩, honly⟩

instance (g : Graph) : Decidable g.PlainReroutes := decidable_of_iff _ plainReroutes_iff.symm

/-- A path joins two pins of one node. -/
def Loops (g : Graph) (p q : PinId) : Prop :=
  WirePath g.Feeds g.Reroutes p q ∧ g.ownerOf? p = g.ownerOf? q

/-- At the input begins what it stands for: its own defaults if nothing is wired to it, and those
of the input of a reroute if that is all that is wired to it. -/
inductive Stands (g : Graph) : PinId → String × Option String → Prop
  | here {t : PinId} {d : String × Option String} (hnone : ∀ s, ¬g.Feeds s t)
      (hdefaults : g.defaultsOf? t = some d) : Stands g t d
  | next {x y t : PinId} {d : String × Option String} (hx : Stands g x d) (hjoint : g.Reroutes x y)
      (hfeeds : g.Feeds y t) (honly : ∀ s, g.Feeds s t → s = y) : Stands g t d

namespace PlainReroutes

variable (h : g.PlainReroutes)
include h

theorem eq_or_eq (hreroute : g.RerouteAt n x y) (hp : p ∈ g.pinsOf n) : p = x ∨ p = y := by
  obtain ⟨ty, hkind⟩ := hreroute.kind?
  obtain ⟨x', y', hreroute', honly⟩ := h n ty hkind
  cases hreroute.input.symm.trans hreroute'.input
  cases hreroute.output.symm.trans hreroute'.output
  exact honly p hp

theorem eq_input (hreroute : g.RerouteAt n x y) (hp : p ∈ g.pinsOf n)
    (hdirection : g.directionOf? p = some .input) : p = x := by
  refine (h.eq_or_eq hreroute hp).resolve_right ?_
  rintro rfl
  exact absurd (hdirection.symm.trans hreroute.directionOf?.2) (by decide)

theorem eq_output (hreroute : g.RerouteAt n x y) (hp : p ∈ g.pinsOf n)
    (hdirection : g.directionOf? p = some .output) : p = y := by
  refine (h.eq_or_eq hreroute hp).resolve_left ?_
  rintro rfl
  exact absurd (hdirection.symm.trans hreroute.directionOf?.1) (by decide)

end PlainReroutes

namespace Bypasses

variable (h : Bypasses g n x y g') (hwf : g.WellFormed)
include h

theorem not_mem_order : n ∉ g'.order := by
  rw [h.order, List.mem_filter]
  simp

theorem ownerOf?_eq (hp : p ∉ g.pinsOf n) : g'.ownerOf? p = g.ownerOf? p := by
  have hface := congrArg (Option.map fun pin ↦ pin.owner) (h.faces p hp)
  rwa [Option.map_map, Option.map_map] at hface

include hwf

theorem rerouteAt_iff : g'.RerouteAt m p q ↔ m ≠ n ∧ g.RerouteAt m p q := by
  constructor
  · intro hm
    have hne : m ≠ n := by
      rintro rfl
      exact h.not_mem_order ((h.wellFormed.mem_order m).2 hm.contains)
    exact ⟨hne, hm.keep (h.keepsNode hwf hne)⟩
  · rintro ⟨hne, hm⟩
    exact hm.kept (h.keepsNode hwf hne)

/-- The reroutes that are left are on other nodes. -/
theorem not_mem_pinsOf (hjoint : g'.Reroutes p q) : p ∉ g.pinsOf n ∧ q ∉ g.pinsOf n := by
  obtain ⟨m, hm⟩ := hjoint
  obtain ⟨hne, hm⟩ := (h.rerouteAt_iff hwf).1 hm
  exact ⟨fun hp ↦ hne (hwf.eq_of_mem_pinsOf hm.mem_pinsOf.1 hp),
    fun hq ↦ hne (hwf.eq_of_mem_pinsOf hm.mem_pinsOf.2 hq)⟩

variable (hreroute : g.RerouteAt n x y)
include hreroute

theorem reroutes_iff : g.Reroutes p q ↔ g'.Reroutes p q ∨ p = x ∧ q = y := by
  constructor
  · rintro ⟨m, hm⟩
    by_cases hne : m = n
    · subst hne
      cases hm.input.symm.trans hreroute.input
      cases hm.output.symm.trans hreroute.output
      exact .inr ⟨rfl, rfl⟩
    · exact .inl ⟨m, (h.rerouteAt_iff hwf).2 ⟨hne, hm⟩⟩
  · rintro (⟨m, hm⟩ | ⟨rfl, rfl⟩)
    · exact ⟨m, ((h.rerouteAt_iff hwf).1 hm).2⟩
    · exact ⟨n, hreroute⟩

/-- A path that is left was one before. -/
theorem path (hpath : WirePath g'.Feeds g'.Reroutes p q) : WirePath g.Feeds g.Reroutes p q := by
  have hwire {a b : PinId} (hfeeds : g'.Feeds a b) : WirePath g.Feeds g.Reroutes a b := by
    obtain ⟨-, -, hold | ⟨hin, hout, -⟩⟩ := (h.feeds a b).1 hfeeds
    · exact .wire hold
    · exact .through hin ⟨n, hreroute⟩ (.wire hout)
  induction hpath with
  | wire hfeeds => exact hwire hfeeds
  | through hfeeds hjoint _ ih =>
    exact (hwire hfeeds).trans ((h.reroutes_iff hwf hreroute).2 (.inl hjoint)) ih

omit hreroute in
/-- A path that avoids the reroute is left. -/
theorem path_of_avoids (hpath : WirePath g.Feeds g'.Reroutes p q) (hp : p ∉ g.pinsOf n)
    (hq : q ∉ g.pinsOf n) : WirePath g'.Feeds g'.Reroutes p q := by
  induction hpath with
  | wire hfeeds => exact .wire ((h.feeds _ _).2 ⟨hp, hq, .inl hfeeds⟩)
  | through hfeeds hjoint _ ih =>
    obtain ⟨hin, hout⟩ := h.not_mem_pinsOf hwf hjoint
    exact .through ((h.feeds _ _).2 ⟨hp, hin, .inl hfeeds⟩) hjoint (ih hout hq)

variable (hlinked : g.Linked) (hplain : g.PlainReroutes)
include hlinked hplain

omit hreroute in
/-- A path through the reroute is left, unless it only turns back to the node that it comes from. -/
theorem path_of_passes (hin : WirePath g.Feeds g'.Reroutes p x)
    (hout : WirePath g.Feeds g'.Reroutes y q) (hp : p ∉ g.pinsOf n) (hq : q ∉ g.pinsOf n) :
    WirePath g'.Feeds g'.Reroutes p q ∨ g.Refuses x y p q := by
  -- two wires of one node that the reroute would join are those of another reroute
  have hback {a b : PinId} (hax : g.Feeds a x) (hyb : g.Feeds y b)
      (howner : g.ownerOf? a = g.ownerOf? b) :
      (∀ u, g'.Reroutes u a → u = b) ∧ ∀ v, g'.Reroutes b v → v = a := by
    have ha := (feeds_iff.1 hax).1
    have hb := (hlinked.feeds hyb).1
    constructor
    · rintro u ⟨m, hm⟩
      obtain ⟨-, hm⟩ := (h.rerouteAt_iff hwf).1 hm
      refine (hplain.eq_input hm ((hwf.mem_pinsOf m b).2 ?_) hb).symm
      exact howner ▸ (hwf.mem_pinsOf m a).1 hm.mem_pinsOf.2
    · rintro v ⟨m, hm⟩
      obtain ⟨-, hm⟩ := (h.rerouteAt_iff hwf).1 hm
      refine (hplain.eq_output hm ((hwf.mem_pinsOf m a).2 ?_) ha).symm
      exact howner ▸ (hwf.mem_pinsOf m b).1 hm.mem_pinsOf.1
  have hjoin {a b : PinId} (ha : a ∉ g.pinsOf n) (hb : b ∉ g.pinsOf n) (hax : g.Feeds a x)
      (hyb : g.Feeds y b) (howner : g.ownerOf? a ≠ g.ownerOf? b) : g'.Feeds a b :=
    (h.feeds a b).2 ⟨ha, hb, .inr ⟨hax, hyb, howner⟩⟩
  rcases hin.last_cases with hpx | ⟨u, a, hpu, hua, hax⟩
  · cases hout with
    | wire hyq =>
      by_cases howner : g.ownerOf? p = g.ownerOf? q
      · exact .inr ⟨hpx, hyq, howner⟩
      · exact .inl (.wire (hjoin hp hq hpx hyq howner))
    | @through _ b v _ hyb hbv hvq =>
      obtain ⟨hb, hv⟩ := h.not_mem_pinsOf hwf hbv
      have hrest := h.path_of_avoids hwf hvq hv hq
      left
      by_cases howner : g.ownerOf? p = g.ownerOf? b
      · cases (hback hpx hyb howner).2 v hbv
        exact hrest
      · exact .through (hjoin hp hb hpx hyb howner) hbv hrest
  · obtain ⟨hu, ha⟩ := h.not_mem_pinsOf hwf hua
    have hfirst := h.path_of_avoids hwf hpu hp hu
    left
    cases hout with
    | wire hyq =>
      by_cases howner : g.ownerOf? a = g.ownerOf? q
      · cases (hback hax hyq howner).1 u hua
        exact hfirst
      · exact hfirst.trans hua (.wire (hjoin ha hq hax hyq howner))
    | @through _ b v _ hyb hbv hvq =>
      obtain ⟨hb, hv⟩ := h.not_mem_pinsOf hwf hbv
      have hrest := h.path_of_avoids hwf hvq hv hq
      by_cases howner : g.ownerOf? a = g.ownerOf? b
      · cases (hback hax hyb howner).2 v hbv
        exact hfirst.trans hua hrest
      · exact hfirst.trans hua (.through (hjoin ha hb hax hyb howner) hbv hrest)

/-- The paths between pins of other nodes are left, but for those that only turn back. -/
theorem path_iff (hp : p ∉ g.pinsOf n) (hq : q ∉ g.pinsOf n) :
    WirePath g.Feeds g.Reroutes p q ↔ WirePath g'.Feeds g'.Reroutes p q ∨ g.Refuses x y p q := by
  constructor
  · intro hpath
    have hjoints : g.Reroutes = fun a b ↦ g'.Reroutes a b ∨ a = x ∧ b = y := by
      funext a b
      exact propext (h.reroutes_iff hwf hreroute)
    rw [hjoints] at hpath
    rcases WirePath.insert_iff.1 hpath with hpath | ⟨hin, hout⟩
    · exact .inl (h.path_of_avoids hwf hpath hp hq)
    · exact h.path_of_passes hwf hlinked hplain hin hout hp hq
  · rintro (hpath | ⟨hin, hout, -⟩)
    · exact h.path hwf hreroute hpath
    · exact .through hin ⟨n, hreroute⟩ (.wire hout)

/-- There is a path between pins of one node just if one is left or the reroute refuses one. -/
theorem exists_loops_iff : (∃ p q, g.Loops p q) ↔
    (∃ a b, g.Refuses x y a b) ∨ ∃ p q, g'.Loops p q := by
  have hstays {p q : PinId} (hpath : WirePath g.Feeds g.Reroutes p q)
      (howner : g.ownerOf? p = g.ownerOf? q) (hp : p ∉ g.pinsOf n) (hq : q ∉ g.pinsOf n) :
      (∃ a b, g.Refuses x y a b) ∨ ∃ p q, g'.Loops p q := by
    rcases (h.path_iff hwf hreroute hlinked hplain hp hq).1 hpath with hpath' | ⟨hin, hout, -⟩
    · exact .inr ⟨p, q, hpath', by rw [h.ownerOf?_eq hp, h.ownerOf?_eq hq, howner]⟩
    · exact .inl ⟨p, q, hin, hout, howner⟩
  constructor
  · rintro ⟨p, q, hpath, howner⟩
    by_cases hp : p ∈ g.pinsOf n
    · -- the path leaves the reroute itself and comes back to it, so it also turns back elsewhere
      have hq : q ∈ g.pinsOf n := (hwf.mem_pinsOf n q).2 (howner ▸ (hwf.mem_pinsOf n p).1 hp)
      obtain ⟨_, hfirst⟩ := hpath.exists_first
      obtain ⟨_, hlast⟩ := hpath.exists_last
      cases hplain.eq_output hreroute hp (feeds_iff.1 hfirst).1
      cases hplain.eq_input hreroute hq (hlinked.feeds hlast).1
      cases hpath with
      | wire hyx => exact absurd hyx (hreroute.not_feeds hwf hlinked)
      | @through _ b v _ hyb hbv hrest =>
        rcases (h.reroutes_iff hwf hreroute).1 hbv with hbv' | ⟨rfl, rfl⟩
        · obtain ⟨hb, hv⟩ := h.not_mem_pinsOf hwf hbv'
          obtain ⟨m, hm⟩ := hbv
          refine hstays (hrest.trans ⟨n, hreroute⟩ (.wire hyb)) ?_ hv hb
          exact ((hwf.mem_pinsOf m v).1 hm.mem_pinsOf.2).trans
            ((hwf.mem_pinsOf m b).1 hm.mem_pinsOf.1).symm
        · exact absurd hyb (hreroute.not_feeds hwf hlinked)
    · refine hstays hpath howner hp fun hq ↦ hp ?_
      exact (hwf.mem_pinsOf n p).2 (howner ▸ (hwf.mem_pinsOf n q).1 hq)
  · rintro (⟨a, b, hin, hout, howner⟩ | ⟨p, q, hpath, howner⟩)
    · exact ⟨a, b, .through hin ⟨n, hreroute⟩ (.wire hout), howner⟩
    · obtain ⟨_, hfirst⟩ := hpath.exists_first
      obtain ⟨_, hlast⟩ := hpath.exists_last
      have hp := ((h.feeds _ _).1 hfirst).1
      have hq := ((h.feeds _ _).1 hlast).2.1
      rw [h.ownerOf?_eq hp, h.ownerOf?_eq hq] at howner
      exact ⟨p, q, h.path hwf hreroute hpath, howner⟩

omit hwf hreroute hlinked hplain in
/-- What fed an input that the reroute was not wired to is all that feeds it. -/
theorem feeds_of_not_wired {s : PinId} (hnot : ¬g.Feeds y t) (hfeeds : g'.Feeds s t) :
    g.Feeds s t :=
  ((h.feeds s t).1 hfeeds).2.2.resolve_right fun hpass ↦ hnot hpass.2.1

/-- What an input stands for is what it stood for.  What the input of the reroute stood for serves
the input that the reroute is wired to alone. -/
theorem stands_both {d : String × Option String} (hstands : g.Stands t d) :
    (t ∉ g.pinsOf n → g'.Stands t d) ∧ (t = x → ∀ t' ∉ g.pinsOf n, g.Feeds y t' →
      (∀ s, g.Feeds s t' → s = y) → g'.Stands t' d) := by
  have hy := hreroute.mem_pinsOf.2
  induction hstands with
  | @here t d hnone hdefaults =>
    refine ⟨fun ht ↦ ?_, ?_⟩
    · refine .here (fun s hs ↦ hnone s (h.feeds_of_not_wired (hnone y) hs)) ?_
      rw [h.stays t ht (hnone y), hdefaults]
    · rintro rfl t' ht' hfeeds honly
      refine .here (fun s hs ↦ ?_) ?_
      · obtain ⟨hs', -, hst | ⟨hst, -⟩⟩ := (h.feeds s t').1 hs
        · exact hs' (honly s hst ▸ hy)
        · exact hnone s hst
      · rw [h.literal t' ht' hnone hfeeds, hdefaults]
  | @next a b t d _ hjoint hfeeds honly ih =>
    obtain ⟨ih, ihx⟩ := ih
    rcases (h.reroutes_iff hwf hreroute).1 hjoint with hjoint' | ⟨rfl, rfl⟩
    · -- another reroute, which is left, stands before `t`
      obtain ⟨ha, hb⟩ := h.not_mem_pinsOf hwf hjoint'
      have hnot : ¬g.Feeds y t := fun hyt ↦ hb (honly y hyt ▸ hy)
      refine ⟨fun ht ↦ ?_, ?_⟩
      · exact .next (ih ha) hjoint' ((h.feeds b t).2 ⟨hb, ht, .inl hfeeds⟩)
          fun s hs ↦ honly s (h.feeds_of_not_wired hnot hs)
      · rintro rfl t' ht' hyt' honly'
        by_cases howner : g.ownerOf? b = g.ownerOf? t'
        · obtain ⟨m, hm⟩ := hjoint
          have hmem : t' ∈ g.pinsOf m :=
            (hwf.mem_pinsOf m t').2 (howner ▸ (hwf.mem_pinsOf m b).1 hm.mem_pinsOf.2)
          rw [hplain.eq_input hm hmem (hlinked.feeds hyt').1]
          exact ih ha
        · refine .next (ih ha) hjoint' ((h.feeds b t').2 ⟨hb, ht', .inr ⟨hfeeds, hyt', howner⟩⟩)
            fun s hs ↦ ?_
          obtain ⟨hs', -, hst | ⟨hst, -⟩⟩ := (h.feeds s t').1 hs
          · exact absurd (honly' s hst ▸ hy) hs'
          · exact honly s hst
    · -- the reroute itself stands before `t`
      refine ⟨fun ht ↦ ihx rfl t ht hfeeds honly, ?_⟩
      rintro rfl
      exact absurd hfeeds (hreroute.not_feeds hwf hlinked)

/-- What an input stands for is what it stood for. -/
theorem stands {d : String × Option String} (hstands : g.Stands t d) (ht : t ∉ g.pinsOf n) :
    g'.Stands t d :=
  (h.stands_both hwf hreroute hlinked hplain hstands).1 ht

omit hreroute hlinked hplain in
theorem ownerOf?_of_left (hp : g'.ownerOf? p = some m) :
    p ∉ g.pinsOf n ∧ g.ownerOf? p = some m := by
  have hmem := (h.wellFormed.mem_pinsOf m p).2 hp
  have hne : m ≠ n := by
    rintro rfl
    exact h.not_mem_order (h.wellFormed.mem_order_of_mem_pinsOf hmem)
  rw [(h.keepsNode hwf hne).pinsOf] at hmem
  exact ⟨fun hp' ↦ hne (hwf.eq_of_mem_pinsOf hmem hp'), (hwf.mem_pinsOf m p).1 hmem⟩

omit hreroute hlinked in
theorem plainReroutes : g'.PlainReroutes := by
  intro m ty hkind
  have hne : m ≠ n := by
    rintro rfl
    exact h.not_mem_order (h.wellFormed.mem_order_of_kind? hkind)
  have hkeeps := h.keepsNode hwf hne
  obtain ⟨a, b, hm, honly⟩ := hplain m ty (hkeeps.kind? ▸ hkind)
  exact ⟨a, b, hm.kept hkeeps, hkeeps.pinsOf ▸ honly⟩

end Bypasses

end Graph

/-! ## Every reroute less -/

namespace FunctionState

open VisualScript.Graph

variable {env : CompileEnv} {s s' s'' : FunctionState} {n : NodeId} {p q x y : PinId}

/-- The reroutes among the nodes `done` were collapsed, and nothing else was done. -/
structure Straightens (done : List NodeId) (s s' : FunctionState) : Prop where
  wellFormed : s'.graph.WellFormed
  linked : s'.graph.Linked
  plain : s'.graph.PlainReroutes
  order : s'.graph.order = s.graph.order.filter fun n ↦
    ¬(n ∈ done ∧ (s.graph.kind? n).map NodeKind.tag = some .knot)
  nodes : ∀ n ∈ s'.graph.order, s'.graph.node? n = s.graph.node? n
  faces : ∀ n ∈ s'.graph.order, ∀ p ∈ s'.graph.pinsOf n,
    (s'.graph.pin? p).map Pin.unwired = (s.graph.pin? p).map Pin.unwired
  path_iff : ∀ p q n m, s'.graph.ownerOf? p = some n → s'.graph.ownerOf? q = some m → n ≠ m →
    (WirePath s.graph.Feeds s.graph.Reroutes p q ↔ WirePath s'.graph.Feeds s'.graph.Reroutes p q)
  exists_loops_iff : (∃ p q, s.graph.Loops p q) ↔
    s.log.numErrors < s'.log.numErrors ∨ ∃ p q, s'.graph.Loops p q
  length_le : ∀ dropped : List (PinId × PinId), dropped.Nodup →
    (∀ p q, (p, q) ∈ dropped → (∃ n, s'.graph.ownerOf? p = some n ∧ s'.graph.ownerOf? q = some n) ∧
      WirePath s.graph.Feeds s.graph.Reroutes p q ∧
        ¬WirePath s'.graph.Feeds s'.graph.Reroutes p q) →
    s.log.numErrors + dropped.length ≤ s'.log.numErrors
  stands : ∀ t n d, s'.graph.ownerOf? t = some n → s.graph.Stands t d → s'.graph.Stands t d

namespace Straightens

theorem refl (hwf : s.graph.WellFormed) (hlinked : s.graph.Linked) (hplain : s.graph.PlainReroutes)
    {done : List NodeId} (hdone : ∀ n ∈ done, (s.graph.kind? n).map NodeKind.tag ≠ some .knot) :
    Straightens done s s where
  wellFormed := hwf
  linked := hlinked
  plain := hplain
  order := by
    refine (List.filter_eq_self.2 fun n _ ↦ decide_eq_true ?_).symm
    exact fun h ↦ hdone n h.1 h.2
  nodes _ _ := rfl
  faces _ _ _ _ := rfl
  path_iff _ _ _ _ _ _ _ := .rfl
  exists_loops_iff := (or_iff_right (Nat.lt_irrefl _)).symm
  length_le dropped _ hdropped := by
    have hnil : dropped = [] := List.eq_nil_iff_forall_not_mem.2 fun (p, q) hpq ↦
      (hdropped p q hpq).2.2 (hdropped p q hpq).2.1
    rw [hnil, List.length_nil, Nat.add_zero]
  stands _ _ _ _ h := h

theorem ownerOf? {done : List NodeId} (h : Straightens done s s') (hwf : s.graph.WellFormed)
    (hp : s'.graph.ownerOf? p = some n) : s.graph.ownerOf? p = some n := by
  have hmem := (h.wellFormed.mem_pinsOf n p).2 hp
  have hnode := h.nodes n (h.wellFormed.mem_order_of_mem_pinsOf hmem)
  rw [pinsOf, hnode, ← pinsOf] at hmem
  exact (hwf.mem_pinsOf n p).1 hmem

theorem trans {done done' : List NodeId} (h : Straightens done s s')
    (h' : Straightens done' s' s'') (hle : s.log.numErrors ≤ s'.log.numErrors)
    (hle' : s'.log.numErrors ≤ s''.log.numErrors) : Straightens (done ++ done') s s'' := by
  have hmem {n : NodeId} (hn : n ∈ s''.graph.order) : n ∈ s'.graph.order :=
    List.mem_of_mem_filter (h'.order ▸ hn)
  refine
    { wellFormed := h'.wellFormed
      linked := h'.linked
      plain := h'.plain
      order := ?_
      nodes := fun n hn ↦ (h'.nodes n hn).trans (h.nodes n (hmem hn))
      faces := fun n hn p hp ↦ (h'.faces n hn p hp).trans (h.faces n (hmem hn) p ?_)
      path_iff := fun p q n m hp hq hne ↦ ?_
      exists_loops_iff := ?_
      length_le := fun dropped hnodup hdropped ↦ ?_
      stands := fun t n d ht hstands ↦ ?_ }
  · have hkinds : s'.graph.order.filter (fun n ↦
        ¬(n ∈ done' ∧ (s'.graph.kind? n).map NodeKind.tag = some .knot)) =
          s'.graph.order.filter fun n ↦
            ¬(n ∈ done' ∧ (s.graph.kind? n).map NodeKind.tag = some .knot) := by
      refine List.filter_congr fun n hn ↦ ?_
      rw [kind?, h.nodes n hn, ← kind?]
    rw [h'.order, hkinds, h.order, List.filter_filter]
    refine List.filter_congr fun n _ ↦ ?_
    rw [← Bool.decide_and]
    refine decide_eq_decide.2 ?_
    rw [List.mem_append]
    tauto
  · rwa [pinsOf, ← h'.nodes n hn, ← pinsOf]
  · have hp' := h'.ownerOf? h.wellFormed hp
    have hq' := h'.ownerOf? h.wellFormed hq
    exact (h.path_iff p q n m hp' hq' hne).trans (h'.path_iff p q n m hp hq hne)
  · rw [h.exists_loops_iff, h'.exists_loops_iff, ← or_assoc]
    refine or_congr_left ?_
    omega
  · -- a path is dropped in the one part of the run or in the other
    classical
    let left : PinId × PinId → Bool := fun pq ↦
      WirePath s'.graph.Feeds s'.graph.Reroutes pq.1 pq.2
    have hfirst := h.length_le (dropped.filter fun pq ↦ !left pq) (hnodup.filter _) fun p q hpq ↦ by
      rw [List.mem_filter, Bool.not_eq_true', decide_eq_false_iff_not] at hpq
      obtain ⟨⟨n, hp, hq⟩, hpath, -⟩ := hdropped p q hpq.1
      exact ⟨⟨n, h'.ownerOf? h.wellFormed hp, h'.ownerOf? h.wellFormed hq⟩, hpath, hpq.2⟩
    have hlast := h'.length_le (dropped.filter left) (hnodup.filter _) fun p q hpq ↦ by
      rw [List.mem_filter, decide_eq_true_eq] at hpq
      obtain ⟨howners, -, hnot⟩ := hdropped p q hpq.1
      exact ⟨howners, hpq.2, hnot⟩
    have hlength := List.length_eq_length_filter_add (l := dropped) left
    omega
  · exact h'.stands t n d ht (h.stands t n d (h'.ownerOf? h.wellFormed ht) hstands)

theorem of_bypasses (h : Bypasses s.graph n x y s'.graph)
    {refused : List (PinId × PinId)} (herrors : s'.log.numErrors = s.log.numErrors + refused.length)
    (hrefused : ∀ a b, (a, b) ∈ refused ↔ s.graph.Refuses x y a b)
    (hwf : s.graph.WellFormed) (hlinked : s.graph.Linked) (hplain : s.graph.PlainReroutes)
    (hreroute : s.graph.RerouteAt n x y) : Straightens [n] s s' := by
  have hne {m : NodeId} (hm : m ∈ s'.graph.order) : m ≠ n := by
    rintro rfl
    exact h.not_mem_order hm
  refine
    { wellFormed := h.wellFormed
      linked := h.linked
      plain := h.plainReroutes hwf hplain
      order := ?_
      nodes := fun m hm ↦ h.nodes m (hne hm)
      faces := fun m hm p hp ↦ h.faces p ?_
      path_iff := fun p q m m' hp hq hmm' ↦ ?_
      exists_loops_iff := ?_
      length_le := fun dropped hnodup hdropped ↦ ?_
      stands := fun t m d ht hstands ↦ ?_ }
  · obtain ⟨ty, hkind⟩ := hreroute.kind?
    rw [h.order]
    refine List.filter_congr fun m _ ↦ decide_eq_decide.2 (not_congr ?_)
    rw [List.mem_singleton]
    refine (and_iff_left_of_imp ?_).symm
    rintro rfl
    rw [hkind]
    rfl
  · exact (h.ownerOf?_of_left hwf ((h.wellFormed.mem_pinsOf m p).1 hp)).1
  · obtain ⟨hp, howner⟩ := h.ownerOf?_of_left hwf hp
    obtain ⟨hq, howner'⟩ := h.ownerOf?_of_left hwf hq
    refine (h.path_iff hwf hreroute hlinked hplain hp hq).trans (or_iff_left ?_)
    rintro ⟨-, -, heq⟩
    exact hmm' (Option.some.inj (howner.symm.trans (heq.trans howner')))
  · rw [h.exists_loops_iff hwf hreroute hlinked hplain, herrors]
    refine or_congr_left ⟨fun ⟨a, b, hrefuses⟩ ↦ ?_, fun hlt ↦ ?_⟩
    · exact Nat.lt_add_of_pos_right (List.length_pos_of_mem ((hrefused a b).2 hrefuses))
    · obtain ⟨⟨a, b⟩, hmem⟩ := List.exists_mem_of_length_pos (Nat.pos_of_lt_add_right hlt)
      exact ⟨a, b, (hrefused a b).1 hmem⟩
  · -- the reroute refused every path that it dropped
    have hsub : dropped ⊆ refused := fun (p, q) hpq ↦ by
      obtain ⟨⟨m, hp, hq⟩, hpath, hnot⟩ := hdropped p q hpq
      have hp' := (h.ownerOf?_of_left hwf hp).1
      have hq' := (h.ownerOf?_of_left hwf hq).1
      exact (hrefused p q).2
        (((h.path_iff hwf hreroute hlinked hplain hp' hq').1 hpath).resolve_left hnot)
    have hlength := (List.subperm_of_subset hnodup hsub).length_le
    omega
  · exact h.stands hwf hreroute hlinked hplain hstands (h.ownerOf?_of_left hwf ht).1

end Straightens

/-- In its turn a reroute is collapsed, and any other node does nothing. -/
theorem straightens_transformNode (henv : NodeTag.knot ∈ env.handled) (hwf : s.graph.WellFormed)
    (hlinked : s.graph.Linked) (hplain : s.graph.PlainReroutes) (n : NodeId) :
    Straightens [n] s (transformNode env s n) := by
  by_cases hkind : ∃ ty, s.graph.kind? n = some (.knot ty)
  · obtain ⟨ty, hkind⟩ := hkind
    obtain ⟨x, y, hreroute, -⟩ := hplain n ty hkind
    have hturn : transformNode env s n = Knot.transform s n := by
      have hhandles : env.handles (.knot ty) = true := decide_eq_true henv
      simp only [transformNode, hkind, hhandles]
      rfl
    obtain ⟨hbypasses, refused, herrors, hrefused⟩ := Knot.bypasses_transform hwf hlinked hreroute
    rw [hturn]
    exact .of_bypasses hbypasses herrors hrefused hwf hlinked hplain hreroute
  · have hsame : transformNode env s n = s := by
      unfold transformNode
      split
      · next kind hkind' =>
        split
        · cases kind with
          | knot ty => exact absurd ⟨ty, hkind'⟩ hkind
          | _ => rfl
        · rfl
      · rfl
    rw [hsame]
    refine .refl hwf hlinked hplain fun m hm htag ↦ hkind ?_
    obtain rfl := List.mem_singleton.1 hm
    obtain ⟨kind, hkind', htag⟩ := Option.map_eq_some_iff.1 htag
    cases kind with
    | knot ty => exact ⟨ty, hkind'⟩
    | _ => cases htag

theorem straightens_foldl (henv : NodeTag.knot ∈ env.handled) (list : List NodeId)
    (hwf : s.graph.WellFormed) (hlinked : s.graph.Linked) (hplain : s.graph.PlainReroutes) :
    Straightens list s (list.foldl (transformNode env) s) := by
  induction list generalizing s with
  | nil => exact .refl hwf hlinked hplain fun n hn ↦ absurd hn List.not_mem_nil
  | cons n list ih =>
    have hturn := straightens_transformNode henv hwf hlinked hplain n
    rw [List.foldl_cons]
    exact hturn.trans (ih hturn.wellFormed hturn.linked hturn.plain)
      (editsGraph_transformNode env s n).numErrors_le
      (EditsGraph.foldl (editsGraph_transformNode env) list _).numErrors_le

/-- Only the graph and the log were changed.  The reroutes are gone and the other nodes are as
they were; paths between different nodes are wires, every path that joins two pins of one node
is an error and no wire, and what an input stands for it has as its defaults. -/
structure Straightened (s s' : FunctionState) : Prop where
  edits : EditsGraph s s'
  order : s'.graph.order = s.graph.order.filter fun n ↦
    (s.graph.kind? n).map NodeKind.tag ≠ some .knot
  nodes : ∀ n ∈ s'.graph.order, s'.graph.node? n = s.graph.node? n
  faces : ∀ n ∈ s'.graph.order, ∀ p ∈ s'.graph.pinsOf n,
    (s'.graph.pin? p).map Pin.unwired = (s.graph.pin? p).map Pin.unwired
  feeds_iff : ∀ n ∈ s'.graph.order, ∀ m ∈ s'.graph.order, n ≠ m →
    ∀ p ∈ s'.graph.pinsOf n, ∀ q ∈ s'.graph.pinsOf m,
      (s'.graph.Feeds p q ↔ WirePath s.graph.Feeds s.graph.Reroutes p q)
  not_feeds : ∀ n ∈ s'.graph.order, ∀ p ∈ s'.graph.pinsOf n, ∀ q ∈ s'.graph.pinsOf n,
    ¬s'.graph.Feeds p q
  errors : s.log.numErrors < s'.log.numErrors ↔ ∃ p q, s.graph.Loops p q
  length_le : ∀ loops : List (PinId × PinId), loops.Nodup →
    (∀ p q, (p, q) ∈ loops → s.graph.Loops p q ∧
      ∃ n ∈ s'.graph.order, p ∈ s'.graph.pinsOf n ∧ q ∈ s'.graph.pinsOf n) →
    s.log.numErrors + loops.length ≤ s'.log.numErrors
  literal : ∀ n ∈ s'.graph.order, ∀ t ∈ s'.graph.pinsOf n, ∀ d, s.graph.Stands t d →
    (∀ p, ¬s'.graph.Feeds p t) ∧ s'.graph.defaultsOf? t = some d

/-- The nodes of a graph are transformed by collapsing every reroute, in whatever order they were
made. -/
theorem straightened_transformNodes (henv : NodeTag.knot ∈ env.handled) (hwf : s.graph.WellFormed)
    (hlinked : s.graph.Linked) (hplain : s.graph.PlainReroutes) :
    Straightened s (s.transformNodes env) := by
  have h : Straightens s.graph.order s (s.transformNodes env) :=
    straightens_foldl henv s.graph.order hwf hlinked hplain
  have horder : (s.transformNodes env).graph.order = s.graph.order.filter fun n ↦
      (s.graph.kind? n).map NodeKind.tag ≠ some .knot := by
    rw [h.order]
    refine List.filter_congr fun n hn ↦ ?_
    simp only [hn, true_and, ne_eq]
  generalize hs' : s.transformNodes env = s' at h horder ⊢
  -- no reroute is left, so a path is a wire
  have hnone (x y : PinId) : ¬s'.graph.Reroutes x y := by
    rintro ⟨n, hn⟩
    obtain ⟨ty, hkind⟩ := hn.kind?
    have hmem := hn.mem_order h.wellFormed
    rw [kind?, h.nodes n hmem, ← kind?] at hkind
    rw [horder, List.mem_filter, hkind] at hmem
    exact of_decide_eq_true hmem.2 rfl
  have hpath (p q : PinId) :
      WirePath s'.graph.Feeds s'.graph.Reroutes p q ↔ s'.graph.Feeds p q := by
    refine ⟨fun hpath ↦ ?_, .wire⟩
    cases hpath with
    | wire hfeeds => exact hfeeds
    | through _ hjoint => exact absurd hjoint (hnone _ _)
  have hapart {p q : PinId} (hfeeds : s'.graph.Feeds p q) :
      s'.graph.ownerOf? p ≠ s'.graph.ownerOf? q := (h.linked.feeds hfeeds).2.2.symm
  have herrors : s.log.numErrors < s'.log.numErrors ↔ ∃ p q, s.graph.Loops p q := by
    rw [h.exists_loops_iff]
    refine (or_iff_left ?_).symm
    rintro ⟨p, q, hloop, howner⟩
    exact hapart ((hpath p q).1 hloop) howner
  have howner {n : NodeId} {p : PinId} (hp : p ∈ s'.graph.pinsOf n) :
      s'.graph.ownerOf? p = some n := (h.wellFormed.mem_pinsOf n p).1 hp
  refine
    { edits := hs' ▸ editsGraph_transformNodes env s
      order := horder
      nodes := h.nodes
      faces := h.faces
      feeds_iff := fun n _ m _ hne p hp q hq ↦ ?_
      not_feeds := fun n _ p hp q hq hfeeds ↦ ?_
      errors := herrors
      length_le := fun loops hnodup hloops ↦ h.length_le loops hnodup fun p q hpq ↦ ?_
      literal := fun n _ t ht d hstands ↦ ?_ }
  · rw [← hpath]
    exact (h.path_iff p q n m (howner hp) (howner hq) hne).symm
  · exact hapart hfeeds ((howner hp).trans (howner hq).symm)
  · obtain ⟨⟨hloop, -⟩, n, -, hp, hq⟩ := hloops p q hpq
    refine ⟨⟨n, howner hp, howner hq⟩, hloop, fun hleft ↦ ?_⟩
    exact hapart ((hpath p q).1 hleft) ((howner hp).trans (howner hq).symm)
  · cases h.stands t n d (howner ht) hstands with
    | here hnone hdefaults => exact ⟨hnone, hdefaults⟩
    | next _ hjoint => exact absurd hjoint (hnone _ _)

/-- A function that shows a literal, which comes through two reroutes, and whose call comes back
to itself through another. -/
def rerouting : FunctionState :=
  let (_, g) := (Graph.empty "F").spawn (.functionEntry {})
  let (_, g) := g.spawn (.knot .int)
  let (_, g) := g.spawn (.knot .int)
  let (_, g) := g.spawn (.knot .exec)
  let (_, g) := g.spawn (.knot .exec)
  let (call, g) := g.spawn (.callFunction { function := "Show" })
  let (_, g) := g.allocPin call .input { name := "Value", ty := .int }
  let g := g.setDefaults ⟨1⟩ "7" none
  { ctx.functionName := "F"
    ctx.graph := (g.linkPairs [(⟨0⟩, ⟨5⟩), (⟨6⟩, ⟨9⟩), (⟨10⟩, ⟨7⟩), (⟨8⟩, ⟨9⟩), (⟨2⟩, ⟨3⟩),
      (⟨4⟩, ⟨12⟩)]).1
    log := {}
    cls := default
    classNetNames := {} }

theorem straightened_rerouting :
    NodeTag.knot ∈ ({ schema := ⟨"Door"⟩ } : CompileEnv).handled ∧ rerouting.graph.WellFormed ∧
    rerouting.graph.Linked ∧ rerouting.graph.PlainReroutes ∧
    Straightened rerouting (rerouting.transformNodes { schema := ⟨"Door"⟩ }) ∧
    (rerouting.transformNodes { schema := ⟨"Door"⟩ }).log.numErrors = 1 := by
  have henv : NodeTag.knot ∈ ({ schema := ⟨"Door"⟩ } : CompileEnv).handled := by decide
  have hwf : rerouting.graph.WellFormed := by decide +kernel
  have hlinked : rerouting.graph.Linked := by decide +kernel
  have hplain : rerouting.graph.PlainReroutes := by decide +kernel
  exact ⟨henv, hwf, hlinked, hplain, straightened_transformNodes henv hwf hlinked hplain,
    by decide +kernel⟩

end FunctionState

end VisualScript
