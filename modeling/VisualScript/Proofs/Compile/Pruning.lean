import VisualScript.Compile.Prune
import VisualScript.Proofs.Compile.Simplification
import VisualScript.Proofs.Graph.Linking

/-!
# What pruning keeps

Pruning keeps the nodes that run, the pure nodes that a chain of links joins to one of these, and
comments on request.  It takes out every other node and nothing else: the nodes that are left stay
as they are, and so do their pins and the links between these.  So pruning once more changes
nothing.
-/

namespace VisualScript.Graph

variable {g g' g'' : Graph} {a b p q : PinId} {m n : NodeId} {pins : List PinId}

/-! ## Cut links -/

/-- The pin loses nothing but links to the pins of a list. -/
def Cuts (g g' : Graph) (pins : List PinId) (p : PinId) : Prop :=
  ∃ keep : PinId → Bool, (∀ q, q ∉ pins → keep q = true) ∧
    g'.pin? p = (g.pin? p).map fun pin ↦ { pin with links := pin.links.filter keep }

theorem Cuts.refl (g : Graph) (pins : List PinId) (p : PinId) : Cuts g g pins p := by
  refine ⟨fun _ ↦ true, fun _ _ ↦ rfl, ?_⟩
  simp

theorem Cuts.trans (h : Cuts g g' pins p) (h' : Cuts g' g'' pins p) : Cuts g g'' pins p := by
  obtain ⟨keep, hkeep, hpin⟩ := h
  obtain ⟨keep', hkeep', hpin'⟩ := h'
  refine ⟨fun q ↦ keep q && keep' q, fun q hq ↦ ?_, ?_⟩
  · simp [hkeep q hq, hkeep' q hq]
  · simp [hpin', hpin, Function.comp_def, List.filter_filter, Bool.and_comm]

theorem cuts_breakLink (g : Graph) (b : PinId) (ha : a ∈ pins) (hp : p ∉ pins) :
    Cuts g (g.breakLink a b) pins p := by
  have hne : a ≠ p := fun heq ↦ hp (heq ▸ ha)
  refine ⟨fun q ↦ !decide (b = p ∧ q = a), fun q hq ↦ ?_, ?_⟩
  · have hqa : q ≠ a := fun heq ↦ hq (heq ▸ ha)
    simp [hqa]
  · rw [breakLink, pin?_modifyPin, pin?_modifyPin, if_neg hne]
    by_cases hb : b = p
    · simp [hb]
    · simp [hb]

theorem cuts_breakPinLinks (g : Graph) (ha : a ∈ pins) (hp : p ∉ pins) :
    Cuts g (g.breakPinLinks a) pins p :=
  List.foldlRecOn (motive := (Cuts g · pins p)) _ _ (.refl g pins p)
    fun g' h b _ ↦ h.trans (cuts_breakLink g' b ha hp)

/-- A pin of another node loses nothing but links to pins of the node. -/
theorem cuts_breakNodeLinks (g : Graph) (hp : p ∉ g.pinsOf n) :
    Cuts g (g.breakNodeLinks n) (g.pinsOf n) p :=
  List.foldlRecOn (motive := (Cuts g · (g.pinsOf n) p)) _ _ (.refl g _ p)
    fun g' h _ ha ↦ h.trans (cuts_breakPinLinks g' ha hp)

/-! ## Nodes that are gone -/

/-- What is left of a graph when some nodes are gone.  The others are in their order, and their
pins have at least their links to each other. -/
structure Sheds (g : Graph) (gone : NodeId → Bool) (g' : Graph) : Prop where
  order : g'.order = g.order.filter (!gone ·)
  node? : ∀ n, g'.node? n = if gone n then none else g.node? n
  pin? : ∀ p, ∃ keep : PinId → Bool,
    (∀ q m, g.ownerOf? q = some m → gone m = false → keep q = true) ∧
    g'.pin? p = if (g.ownerOf? p).any gone then none
      else (g.pin? p).map fun pin ↦ { pin with links := pin.links.filter keep }

namespace Sheds

variable {gone gone' : NodeId → Bool}

theorem refl (g : Graph) : Sheds g (fun _ ↦ false) g where
  order := by simp
  node? _ := rfl
  pin? p := ⟨fun _ ↦ true, fun _ _ _ _ ↦ rfl, by simp⟩

theorem congr (h : Sheds g gone g') (hgone : ∀ n, gone n = gone' n) : Sheds g gone' g' :=
  (funext hgone : gone = gone') ▸ h

section Left

variable (h : Sheds g gone g')
include h

theorem ownerOf?_eq (p : PinId) : g'.ownerOf? p = (g.ownerOf? p).filter (!gone ·) := by
  obtain ⟨keep, -, hpin⟩ := h.pin? p
  unfold ownerOf? at hpin ⊢
  rw [hpin]
  cases g.pin? p with
  | none => simp
  | some pin => cases hgone : gone pin.owner <;> simp [hgone, Option.filter]

theorem mem_order : n ∈ g'.order ↔ n ∈ g.order ∧ gone n = false := by
  rw [h.order, List.mem_filter, Bool.not_eq_true']

theorem node?_eq (hn : gone n = false) : g'.node? n = g.node? n := by
  rw [h.node?, hn, if_neg Bool.false_ne_true]

theorem isPure_eq (hn : gone n = false) : g'.isPure n = g.isPure n := by
  rw [isPure, isPure, h.node?_eq hn]

theorem kindIs_eq (hn : gone n = false) (kinds : NodeKind → Bool) :
    g'.kindIs n kinds = g.kindIs n kinds := by
  rw [kindIs, kindIs, kind?, kind?, h.node?_eq hn]

theorem pinsOf_eq (hn : gone n = false) : g'.pinsOf n = g.pinsOf n := by
  rw [pinsOf, pinsOf, h.node?_eq hn]

/-- A pin of a node that is left leads to those of its neighbours that are left. -/
theorem mem_linkedNodes (hp : g.ownerOf? p = some n) (hn : gone n = false) :
    m ∈ g'.linkedNodes p ↔ m ∈ g.linkedNodes p ∧ gone m = false := by
  obtain ⟨pin, hpin, rfl⟩ := ownerOf?_eq_some.1 hp
  obtain ⟨keep, hkeep, hpin'⟩ := h.pin? p
  rw [hp, Option.any_some, hn, if_neg Bool.false_ne_true, hpin, Option.map_some] at hpin'
  simp only [Graph.mem_linkedNodes, h.ownerOf?_eq, Option.filter_eq_some_iff, linksOf, hpin, hpin',
    Option.map_some, Option.getD_some, List.mem_filter, Bool.not_eq_true']
  constructor
  · rintro ⟨q, ⟨hq, -⟩, howner, hm⟩
    exact ⟨⟨q, hq, howner⟩, hm⟩
  · rintro ⟨⟨q, hq, howner⟩, hm⟩
    exact ⟨q, ⟨hq, hkeep q m howner hm⟩, howner, hm⟩

theorem mem_filteredPins (hwf : g.WellFormed) (hn : gone n = false) {direction : Direction}
    {exec : Bool} :
    p ∈ g'.filteredPins n direction exec ↔ p ∈ g.filteredPins n direction exec := by
  rw [Graph.mem_filteredPins, Graph.mem_filteredPins, h.pinsOf_eq hn]
  refine and_congr_right fun hp ↦ ?_
  have howner := (hwf.mem_pinsOf n p).1 hp
  obtain ⟨pin, hpin, -⟩ := ownerOf?_eq_some.1 howner
  obtain ⟨keep, -, hpin'⟩ := h.pin? p
  rw [howner, Option.any_some, hn, if_neg Bool.false_ne_true, hpin, Option.map_some] at hpin'
  simp [hpin, hpin', Pin.isExec]

theorem mem_execSuccessors (hwf : g.WellFormed) (hn : gone n = false) :
    m ∈ g'.execSuccessors n ↔ m ∈ g.execSuccessors n ∧ gone m = false := by
  have hpin {p : PinId} (hp : p ∈ g.filteredPins n .output true) :
      m ∈ g'.linkedNodes p ↔ m ∈ g.linkedNodes p ∧ gone m = false :=
    h.mem_linkedNodes ((hwf.mem_pinsOf n p).1 (Graph.mem_filteredPins.1 hp).1) hn
  simp only [execSuccessors, List.mem_flatMap, h.mem_filteredPins hwf hn]
  constructor
  · rintro ⟨p, hp, hm⟩
    obtain ⟨hm, hleft⟩ := (hpin hp).1 hm
    exact ⟨⟨p, hp, hm⟩, hleft⟩
  · rintro ⟨⟨p, hp, hm⟩, hleft⟩
    exact ⟨p, hp, (hpin hp).2 ⟨hm, hleft⟩⟩

end Left

/-- Nodes can go in several turns. -/
theorem trans (h : Sheds g gone g') (h' : Sheds g' gone' g'') :
    Sheds g (fun n ↦ gone n || gone' n) g'' where
  order := by
    rw [h'.order, h.order, List.filter_filter]
    exact List.filter_congr fun n _ ↦ by rw [Bool.not_or, Bool.and_comm]
  node? n := by
    rw [h'.node?, h.node?]
    cases gone n <;> cases gone' n <;> rfl
  pin? p := by
    obtain ⟨keep, hkeep, hpin⟩ := h.pin? p
    obtain ⟨keep', hkeep', hpin'⟩ := h'.pin? p
    refine ⟨fun q ↦ keep q && keep' q, fun q m hq hm ↦ ?_, ?_⟩
    · obtain ⟨hm, hm'⟩ := Bool.or_eq_false_iff.1 hm
      have hq' : g'.ownerOf? q = some m := by simp [h.ownerOf?_eq, hq, hm]
      simp [hkeep q m hq hm, hkeep' q m hq' hm']
    · rw [hpin', h.ownerOf?_eq, hpin]
      cases hp : g.pin? p with
      | none => simp [ownerOf?, hp]
      | some pin =>
        cases hn : gone pin.owner with
        | false =>
          simp [ownerOf?, hp, hn, List.filter_filter, Bool.and_comm]
        | true => simp [ownerOf?, hp, hn]

end Sheds

theorem sheds_removeNode (hwf : g.WellFormed) (hn : g.contains n = true) :
    g.Sheds (· == n) (g.removeNode n) where
  order := by
    rw [order_removeNode hn]
    exact List.filter_congr fun m _ ↦ by by_cases hm : m = n <;> simp [hm]
  node? m := by
    rw [node?_removeNode hn, Graph.node?, nodes_breakNodeLinks]
    by_cases hm : n = m
    · simp [hm]
    · simp [hm, Ne.symm hm, Graph.node?]
  pin? p := by
    rw [pin?_removeNode hn]
    by_cases hp : p ∈ g.pinsOf n
    · refine ⟨fun _ ↦ true, fun _ _ _ _ ↦ rfl, ?_⟩
      simp [hp, (hwf.mem_pinsOf n p).1 hp]
    · obtain ⟨keep, hkeep, hpin⟩ := cuts_breakNodeLinks g hp
      refine ⟨keep, fun q m hq hm ↦ hkeep q fun hmem ↦ ?_, ?_⟩
      · rw [(hwf.mem_pinsOf n q).1 hmem] at hq
        simp [Option.some.inj hq] at hm
      · have howner : (g.ownerOf? p).any (· == n) = false := by
          refine Bool.eq_false_iff.2 fun hany ↦ hp ?_
          obtain ⟨m, hm, heq⟩ := (Option.any_eq_true _ _).1 hany
          rw [hwf.mem_pinsOf, hm, eq_of_beq heq]
        rw [if_neg hp, howner, if_neg Bool.false_ne_true, hpin]

end VisualScript.Graph

namespace VisualScript

open Relation

/-- A chain of steps can be followed in another relation if each step can and leads to where the
next one can. -/
theorem reflTransGen_lift {α : Type} {r r' : α → α → Prop} {P : α → Prop} {a b : α}
    (hstep : ∀ c d, P c → r c d → P d ∧ r' c d) (ha : P a) (h : ReflTransGen r a b) :
    P b ∧ ReflTransGen r' a b := by
  induction h with
  | refl => exact ⟨ha, .refl⟩
  | tail _ hlast ih =>
    obtain ⟨hd, hlast⟩ := hstep _ _ ih.1 hlast
    exact ⟨hd, ih.2.tail hlast⟩

namespace Graph

variable {g g' : Graph} {roots : List NodeId} {keepComments : Bool} {m n : NodeId} {p : PinId}

/-! ## Nodes that are kept -/

/-- A chain of exec links leads from a root to the node. -/
def Runs (g : Graph) (roots : List NodeId) (n : NodeId) : Prop :=
  ∃ r ∈ roots, r ∈ g.order ∧ ReflTransGen (fun a b ↦ b ∈ g.execSuccessors a) r n

/-- Some pin of one of the nodes is linked to some pin of the other. -/
def Joined (g : Graph) (n m : NodeId) : Prop :=
  (∃ p ∈ g.pinsOf n, m ∈ g.linkedNodes p) ∨ ∃ p ∈ g.pinsOf m, n ∈ g.linkedNodes p

/-- A chain of links joins the node to one that runs, and every node on it runs or is pure. -/
def Clings (g : Graph) (roots : List NodeId) (n : NodeId) : Prop :=
  ∃ r, g.Runs roots r ∧
    ReflTransGen (fun a b ↦ g.Joined a b ∧ (g.Runs roots b ∨ g.isPure b = true)) r n

def Kept (g : Graph) (roots : List NodeId) (keepComments : Bool) (n : NodeId) : Prop :=
  g.Runs roots n ∨ (g.isPure n = true ∧ g.Clings roots n) ∨
    (keepComments = true ∧ g.kindIs n (·.isComment) = true)

theorem Runs.clings (h : g.Runs roots n) : g.Clings roots n := ⟨n, h, .refl⟩

theorem isPure_of_isComment (h : g.kindIs n (·.isComment) = true) : g.isPure n = true := by
  obtain ⟨kind, hkind, hcomment⟩ := (Option.any_eq_true _ _).1 h
  rw [isPure_of_kind? hkind]
  cases kind with
  | comment text => rfl
  | _ => cases hcomment

section WellFormed

variable (hwf : g.WellFormed)
include hwf

theorem mem_order_of_isPure (h : g.isPure n = true) : n ∈ g.order := by
  obtain ⟨node, hnode, -⟩ := (Option.any_eq_true _ _).1 h
  exact (hwf.mem_order n).2 (Option.isSome_iff_exists.2 ⟨node, hnode⟩)

theorem mem_order_of_mem_linkedNodes (h : n ∈ g.linkedNodes p) : n ∈ g.order := by
  obtain ⟨q, -, hq⟩ := mem_linkedNodes.1 h
  exact hwf.mem_order_of_mem_pinsOf ((hwf.mem_pinsOf n q).2 hq)

theorem mem_order_of_joined (h : g.Joined n m) : n ∈ g.order ∧ m ∈ g.order := by
  rcases h with ⟨p, hp, hm⟩ | ⟨p, hp, hn⟩
  · exact ⟨hwf.mem_order_of_mem_pinsOf hp, mem_order_of_mem_linkedNodes hwf hm⟩
  · exact ⟨mem_order_of_mem_linkedNodes hwf hn, hwf.mem_order_of_mem_pinsOf hp⟩

theorem mem_order_of_mem_execSuccessors (h : m ∈ g.execSuccessors n) : m ∈ g.order := by
  obtain ⟨p, -, hm⟩ := List.mem_flatMap.1 h
  exact mem_order_of_mem_linkedNodes hwf hm

theorem Runs.mem_order (h : g.Runs roots n) : n ∈ g.order := by
  obtain ⟨r, -, hr, hwalk⟩ := h
  cases hwalk with
  | refl => exact hr
  | tail _ hlast => exact mem_order_of_mem_execSuccessors hwf hlast

theorem Kept.mem_order (h : g.Kept roots keepComments n) : n ∈ g.order := by
  rcases h with h | ⟨hpure, -⟩ | ⟨-, hcomment⟩
  · exact h.mem_order hwf
  · exact mem_order_of_isPure hwf hpure
  · exact mem_order_of_isPure hwf (isPure_of_isComment hcomment)

/-! ## The two walks -/

theorem mem_execReachable : n ∈ g.execReachable roots ↔ g.Runs roots n := by
  have hstep : (fun a b ↦ b ∈ g.execSuccessors a ∧ b ∈ g.order) = fun a b ↦ b ∈ g.execSuccessors a :=
    funext fun a ↦ funext fun b ↦
      propext (and_iff_left_of_imp (mem_order_of_mem_execSuccessors hwf))
  rw [execReachable, mem_reach, reaches_iff, hstep]
  rfl

omit hwf in
theorem mem_neighbours {edges : List (NodeId × NodeId)} :
    m ∈ neighbours edges n ↔ (n, m) ∈ edges ∨ (m, n) ∈ edges := by
  simp only [neighbours, List.mem_filterMap, Prod.exists]
  constructor
  · rintro ⟨a, b, hedge, hm⟩
    split at hm
    · next ha =>
      cases hm
      exact .inl (ha ▸ hedge)
    · split at hm
      · next hb =>
        cases hm
        exact .inr (hb ▸ hedge)
      · cases hm
  · rintro (hedge | hedge)
    · exact ⟨n, m, hedge, by simp⟩
    · refine ⟨m, n, hedge, ?_⟩
      by_cases hmn : m = n <;> simp [hmn]

theorem mem_linkEdges : (n, m) ∈ g.linkEdges ↔ ∃ p ∈ g.pinsOf n, m ∈ g.linkedNodes p := by
  simp only [linkEdges, List.mem_flatMap, List.mem_map, Prod.mk.injEq]
  constructor
  · rintro ⟨a, -, b, ⟨p, hp, hb⟩, rfl, rfl⟩
    exact ⟨p, hp, hb⟩
  · rintro ⟨p, hp, hm⟩
    exact ⟨n, hwf.mem_order_of_mem_pinsOf hp, m, ⟨p, hp, hm⟩, rfl, rfl⟩

theorem mem_linkReachable {starts : List NodeId} : n ∈ g.linkReachable starts ↔
    ∃ r ∈ starts, r ∈ g.order ∧ ReflTransGen g.Joined r n := by
  have hstep : (fun a b ↦ b ∈ neighbours g.linkEdges a ∧ b ∈ g.order) = g.Joined :=
    funext fun a ↦ funext fun b ↦ propext <| by
      rw [mem_neighbours, mem_linkEdges hwf, mem_linkEdges hwf]
      exact and_iff_left_of_imp fun h ↦ (mem_order_of_joined hwf h).2
  rw [linkReachable, mem_reach, reaches_iff, hstep]

theorem Clings.mem_linkReachable (h : g.Clings roots n) :
    n ∈ g.linkReachable (g.execReachable roots) := by
  obtain ⟨r, hr, hwalk⟩ := h
  exact (Graph.mem_linkReachable hwf).2 ⟨r, (mem_execReachable hwf).2 hr, hr.mem_order hwf,
    ReflTransGen.mono (fun _ _ hstep ↦ hstep.1) _ _ hwalk⟩

end WellFormed

/-- Nodes that are left are joined as they were before. -/
theorem Sheds.joined_iff {gone : NodeId → Bool} (h : g.Sheds gone g') (hwf : g.WellFormed)
    (hwf' : g'.WellFormed) :
    g'.Joined n m ↔ g.Joined n m ∧ gone n = false ∧ gone m = false := by
  have hone {a b : NodeId} (ha : gone a = false) :
      (∃ p ∈ g'.pinsOf a, b ∈ g'.linkedNodes p) ↔
        (∃ p ∈ g.pinsOf a, b ∈ g.linkedNodes p) ∧ gone b = false := by
    rw [h.pinsOf_eq ha]
    constructor
    · rintro ⟨p, hp, hb⟩
      obtain ⟨hb, hleft⟩ := (h.mem_linkedNodes ((hwf.mem_pinsOf a p).1 hp) ha).1 hb
      exact ⟨⟨p, hp, hb⟩, hleft⟩
    · rintro ⟨⟨p, hp, hb⟩, hleft⟩
      exact ⟨p, hp, (h.mem_linkedNodes ((hwf.mem_pinsOf a p).1 hp) ha).2 ⟨hb, hleft⟩⟩
  constructor
  · intro hjoined
    obtain ⟨hn, hm⟩ := mem_order_of_joined hwf' hjoined
    have hn := (h.mem_order.1 hn).2
    have hm := (h.mem_order.1 hm).2
    refine ⟨hjoined.imp (fun hnm ↦ ((hone hn).1 hnm).1) fun hmn ↦ ((hone hm).1 hmn).1, hn, hm⟩
  · rintro ⟨hjoined, hn, hm⟩
    exact hjoined.imp (fun hnm ↦ (hone hn).2 ⟨hnm, hm⟩) fun hmn ↦ (hone hm).2 ⟨hmn, hn⟩

/-! ## Removing by a test -/

/-- The turn of one node in the walk. -/
def siftTurn (keep : Graph → NodeId → Bool) (acc : List NodeId × Graph) (n : NodeId) :
    List NodeId × Graph :=
  if keep acc.2 n then acc else (acc.1 ++ [n], acc.2.removeNode n)

/-- The nodes `done` had their turn: those that the test does not keep are removed. -/
structure Sifted (g : Graph) (keep : Graph → NodeId → Bool) (done : List NodeId)
    (acc : List NodeId × Graph) : Prop where
  removed : acc.1 = done.filter (!keep g ·)
  wellFormed : acc.2.WellFormed
  sheds : g.Sheds (· ∈ acc.1) acc.2

section Sifting

variable {keep : Graph → NodeId → Bool} {done : List NodeId} {acc : List NodeId × Graph}
  (hwf : g.WellFormed) (hkeep : ∀ g' n, g'.node? n = g.node? n → keep g' n = keep g n)
include hwf hkeep

theorem Sifted.step (h : Sifted g keep done acc) {n : NodeId} (horder : n ∈ g.order)
    (hn : n ∉ done) : Sifted g keep (done ++ [n]) (siftTurn keep acc n) := by
  have hleft : n ∉ acc.1 := fun hmem ↦ hn (List.mem_filter.1 (h.removed ▸ hmem)).1
  have hnode : acc.2.node? n = g.node? n := h.sheds.node?_eq (decide_eq_false hleft)
  have htest := hkeep acc.2 n hnode
  unfold siftTurn
  by_cases hkept : keep acc.2 n = true
  · rw [if_pos hkept]
    refine ⟨?_, h.wellFormed, h.sheds⟩
    rw [List.filter_append, List.filter_singleton, ← htest, hkept, h.removed]
    exact (List.append_nil _).symm
  · rw [if_neg hkept]
    have hcontains : acc.2.contains n = true := by
      rw [contains, hnode]
      exact (hwf.mem_order n).1 horder
    refine ⟨?_, h.wellFormed.removeNode n,
      (h.sheds.trans (sheds_removeNode h.wellFormed hcontains)).congr fun m ↦ ?_⟩
    · rw [List.filter_append, List.filter_singleton, ← htest, Bool.eq_false_iff.2 hkept, h.removed]
      rfl
    · by_cases hm : m = n <;> simp [hm]

theorem Sifted.run {rest : List NodeId} (h : Sifted g keep done acc) (hrest : rest ⊆ g.order)
    (hnodup : (done ++ rest).Nodup) :
    Sifted g keep (done ++ rest) (rest.foldl (siftTurn keep) acc) := by
  induction rest generalizing done acc with
  | nil => rwa [List.append_nil]
  | cons n rest ih =>
    obtain ⟨horder, hrest⟩ := List.cons_subset.1 hrest
    have hn : n ∉ done := fun hmem ↦
      (List.nodup_append'.1 hnodup).2.2 hmem List.mem_cons_self
    rw [List.append_cons] at hnodup ⊢
    exact ih (h.step hwf hkeep horder hn) hrest hnodup

end Sifting

/-- A test that looks at nothing but the node itself is as good before the walk as in it. -/
theorem removeUnless_spec (hwf : g.WellFormed) (keep : Graph → NodeId → Bool)
    (hkeep : ∀ g' n, g'.node? n = g.node? n → keep g' n = keep g n) :
    ∃ removed g', g.removeUnless keep = (removed, g') ∧ removed = g.order.filter (!keep g ·) ∧
      g'.WellFormed ∧ g.Sheds (· ∈ removed) g' := by
  have hstart : Sifted g keep [] ([], g) :=
    ⟨rfl, hwf, (Sheds.refl g).congr fun _ ↦ by simp⟩
  have hend := hstart.run hwf hkeep (List.Subset.refl _) hwf.nodup_order
  exact ⟨_, _, rfl, hend.removed, hend.wellFormed, hend.sheds⟩

/-! ## Pruning -/

section Pruning

variable (hwf : g.WellFormed)
include hwf

/-- Once the nodes are gone that neither run nor are pure, links lead from those that run to the
nodes that cling to them. -/
theorem mem_linkReachable_iff {gone : NodeId → Bool} (h : g.Sheds gone g') (hwf' : g'.WellFormed)
    (hgone : ∀ n ∈ g.order, gone n = false ↔ g.Runs roots n ∨ g.isPure n = true) :
    n ∈ g'.linkReachable (g.execReachable roots) ↔ g.Clings roots n := by
  have hleft (a : NodeId) (ha : a ∈ g'.order) : g.Runs roots a ∨ g.isPure a = true := by
    obtain ⟨horder, hleft⟩ := h.mem_order.1 ha
    exact (hgone a horder).1 hleft
  rw [mem_linkReachable hwf']
  constructor
  · rintro ⟨r, hr, -, hwalk⟩
    refine ⟨r, (mem_execReachable hwf).1 hr, ReflTransGen.mono (fun a b hstep ↦ ?_) _ _ hwalk⟩
    exact ⟨((h.joined_iff hwf hwf').1 hstep).1, hleft b (mem_order_of_joined hwf' hstep).2⟩
  · rintro ⟨r, hr, hwalk⟩
    have hstart : gone r = false := (hgone r (hr.mem_order hwf)).2 (.inl hr)
    refine ⟨r, (mem_execReachable hwf).2 hr, h.mem_order.2 ⟨hr.mem_order hwf, hstart⟩, ?_⟩
    refine (reflTransGen_lift (P := (gone · = false)) (fun a b ha hstep ↦ ?_) hstart hwalk).2
    have hb := (hgone b (mem_order_of_joined hwf hstep.1).2).2 hstep.2
    exact ⟨hb, (h.joined_iff hwf hwf').2 ⟨hstep.1, ha, hb⟩⟩

/-- Pruning takes out the nodes that are not kept, each once, and leaves the others alone. -/
theorem sheds_pruneIsolated (roots : List NodeId) (keepComments : Bool) :
    ∃ removed g', g.pruneIsolated roots keepComments = (removed, g') ∧ removed.Nodup ∧
      (∀ n, n ∈ removed ↔ n ∈ g.order ∧ ¬g.Kept roots keepComments n) ∧
      g'.WellFormed ∧ g.Sheds (· ∈ removed) g' := by
  obtain ⟨dead, g₁, hfirst, hdead, hwf₁, hsheds₁⟩ := removeUnless_spec hwf
    (fun g' n ↦ n ∈ g.execReachable roots || g'.isPure n)
    fun g' n hn ↦ by simp only [isPure, hn]
  obtain ⟨loose, g₂, hsecond, hloose, hwf₂, hsheds₂⟩ := removeUnless_spec hwf₁
    (fun g' n ↦ n ∈ g₁.linkReachable (g.execReachable roots) ||
      (keepComments && g'.kindIs n (·.isComment)))
    fun g' n hn ↦ by simp only [kindIs, kind?, hn]
  have hruns (n : NodeId) : n ∈ dead ↔
      n ∈ g.order ∧ ¬(g.Runs roots n ∨ g.isPure n = true) := by
    simp [hdead, mem_execReachable hwf]
  have hconnected {n : NodeId} : n ∈ g₁.linkReachable (g.execReachable roots) ↔ g.Clings roots n :=
    mem_linkReachable_iff hwf hsheds₁ hwf₁ fun n hn ↦ by simp [hruns, hn, or_iff_not_imp_left]
  have hclings (n : NodeId) : n ∈ loose ↔ (n ∈ g.order ∧ n ∉ dead) ∧
      ¬(g.Clings roots n ∨ (keepComments = true ∧ g.kindIs n (·.isComment) = true)) := by
    rw [hloose, List.mem_filter, hsheds₁.mem_order, decide_eq_false_iff_not]
    refine and_congr_right fun hn ↦ ?_
    have hkind := hsheds₁.kindIs_eq (decide_eq_false hn.2) (·.isComment)
    rw [hkind, ← hconnected]
    cases keepComments <;> simp
  refine ⟨dead ++ loose, g₂, ?_, ?_, fun n ↦ ?_, hwf₂,
    (hsheds₁.trans hsheds₂).congr fun n ↦ by simp⟩
  · simp only [pruneIsolated, hfirst, hsecond]
  · refine List.Nodup.append ?_ ?_ fun n hn hn' ↦ ((hclings n).1 hn').1.2 hn
    · exact hdead ▸ hwf.nodup_order.filter _
    · exact hloose ▸ hwf₁.nodup_order.filter _
  · rw [List.mem_append, hclings, hruns, Kept]
    have hcomment : g.kindIs n (·.isComment) = true → g.isPure n = true := isPure_of_isComment
    have hrunning : g.Runs roots n → g.Clings roots n := Runs.clings
    tauto

/-- A graph all of whose nodes are kept is not pruned. -/
theorem pruneIsolated_of_kept (h : ∀ n ∈ g.order, g.Kept roots keepComments n) :
    g.pruneIsolated roots keepComments = ([], g) := by
  have hdead : g.removeUnless (fun g' n ↦ n ∈ g.execReachable roots || g'.isPure n) = ([], g) :=
    removeUnless_eq_self fun n hn ↦ by
      rw [Bool.or_eq_true, decide_eq_true_eq, mem_execReachable hwf]
      exact (h n hn).imp_right fun hrest ↦ hrest.elim And.left fun hcomment ↦
        isPure_of_isComment hcomment.2
  have hloose : g.removeUnless (fun g' n ↦ n ∈ g.linkReachable (g.execReachable roots) ||
      (keepComments && g'.kindIs n (·.isComment))) = ([], g) :=
    removeUnless_eq_self fun n hn ↦ by
      rw [Bool.or_eq_true, Bool.and_eq_true, decide_eq_true_eq]
      rcases h n hn with hrun | ⟨-, hcling⟩ | hcomment
      · exact .inl (hrun.clings.mem_linkReachable hwf)
      · exact .inl (hcling.mem_linkReachable hwf)
      · exact .inr hcomment
  simp only [pruneIsolated, hdead, hloose, List.append_nil]

/-- What is kept would be kept again if all that is gone is not kept. -/
theorem Sheds.kept {gone : NodeId → Bool} (h : g.Sheds gone g') (hwf' : g'.WellFormed)
    (hgone : ∀ n, g.Kept roots keepComments n → gone n = false)
    (hkept : g.Kept roots keepComments n) : g'.Kept roots keepComments n := by
  have hruns {n : NodeId} (hn : g.Runs roots n) : g'.Runs roots n := by
    obtain ⟨r, hr, horder, hwalk⟩ := hn
    have hstart : g.Runs roots r := ⟨r, hr, horder, .refl⟩
    refine ⟨r, hr, h.mem_order.2 ⟨horder, hgone r (.inl hstart)⟩, ?_⟩
    refine (reflTransGen_lift (P := g.Runs roots) (fun a b ha hstep ↦ ?_) hstart hwalk).2
    obtain ⟨s, hs, horder, hwalk⟩ := ha
    have hb : g.Runs roots b := ⟨s, hs, horder, hwalk.tail hstep⟩
    have ha : g.Runs roots a := ⟨s, hs, horder, hwalk⟩
    exact ⟨hb, (h.mem_execSuccessors hwf (hgone a (.inl ha))).2 ⟨hstep, hgone b (.inl hb)⟩⟩
  have hclings {n : NodeId} (hn : g.Clings roots n) : g'.Clings roots n := by
    obtain ⟨r, hr, hwalk⟩ := hn
    refine ⟨r, hruns hr, ?_⟩
    let Holds (a : NodeId) : Prop := g.Clings roots a ∧ (g.Runs roots a ∨ g.isPure a = true)
    have hleft {a : NodeId} (ha : Holds a) : gone a = false :=
      hgone a (ha.2.imp_right fun hpure ↦ .inl ⟨hpure, ha.1⟩)
    refine (reflTransGen_lift (P := Holds) (fun a b ha hstep ↦ ?_) ⟨hr.clings, .inl hr⟩ hwalk).2
    obtain ⟨s, hs, hwalk⟩ := ha.1
    have hb : Holds b := ⟨⟨s, hs, hwalk.tail hstep⟩, hstep.2⟩
    refine ⟨hb, (h.joined_iff hwf hwf').2 ⟨hstep.1, hleft ha, hleft hb⟩, hb.2.imp hruns ?_⟩
    exact fun hpure ↦ (h.isPure_eq (hleft hb)).trans hpure
  have hn := hgone n hkept
  rw [Kept, h.isPure_eq hn, h.kindIs_eq hn]
  exact hkept.imp hruns (.imp_left (.imp_right hclings))

/-- Pruning keeps the nodes that run, the pure nodes that cling to them and, on request, comments,
all as they are.  It names every other node once.  Pruning again takes nothing out. -/
theorem pruneIsolated_spec (roots : List NodeId) (keepComments : Bool) :
    ∃ removed g', g.pruneIsolated roots keepComments = (removed, g') ∧
      (∀ n, n ∈ g'.order ↔ g.Kept roots keepComments n) ∧
      removed.Nodup ∧ (∀ n, n ∈ removed ↔ n ∈ g.order ∧ ¬g.Kept roots keepComments n) ∧
      g.Sheds (· ∈ removed) g' ∧ g'.pruneIsolated roots keepComments = ([], g') := by
  obtain ⟨removed, g', hprune, hnodup, hremoved, hwf', hsheds⟩ :=
    sheds_pruneIsolated hwf roots keepComments
  have hkept (n : NodeId) : n ∈ g'.order ↔ g.Kept roots keepComments n := by
    rw [hsheds.mem_order, decide_eq_false_iff_not, hremoved, not_and, not_not]
    exact ⟨fun h ↦ h.2 h.1, fun h ↦ ⟨h.mem_order hwf, fun _ ↦ h⟩⟩
  have hgone (n : NodeId) (hn : g.Kept roots keepComments n) : decide (n ∈ removed) = false :=
    decide_eq_false fun h ↦ ((hremoved n).1 h).2 hn
  refine ⟨removed, g', hprune, hkept, hnodup, hremoved, hsheds, pruneIsolated_of_kept hwf' ?_⟩
  exact fun n hn ↦ hsheds.kept hwf hwf' hgone ((hkept n).1 hn)

end Pruning

/-- Two calls run in a loop and read a value.  Another one that does not run reads it too, and what
that one gives is read by nothing that runs. -/
def attic : Graph :=
  let call (id : Nat) (pure : Bool) (pins : List PinId) : Node :=
    { id := ⟨id⟩, kind := .callFunction (.library "Read" "Lib" pure), pins }
  let pin (id owner : Nat) (direction : Direction) (ty : PinType) (links : List PinId) : Pin :=
    { id := ⟨id⟩, owner := ⟨owner⟩, name := "", direction, ty, links }
  { name := "Attic"
    nodes := ⟨#[some { id := ⟨0⟩, kind := .functionEntry {}, pins := [⟨0⟩] },
      some (call 1 false [⟨1⟩, ⟨2⟩, ⟨4⟩]), some (call 2 false [⟨3⟩, ⟨6⟩]), some (call 3 true [⟨5⟩]),
      some (call 4 false [⟨7⟩, ⟨8⟩]), some (call 5 true [⟨9⟩]),
      some { id := ⟨6⟩, kind := .comment "Later", pins := [] }]⟩
    pins := ⟨#[some (pin 0 0 .output .exec [⟨1⟩]), some (pin 1 1 .input .exec [⟨0⟩, ⟨6⟩]),
      some (pin 2 1 .output .exec [⟨3⟩]), some (pin 3 2 .input .exec [⟨2⟩]),
      some (pin 4 1 .input .int [⟨5⟩]), some (pin 5 3 .output .int [⟨4⟩, ⟨7⟩]),
      some (pin 6 2 .output .exec [⟨1⟩]), some (pin 7 4 .input .int [⟨5⟩]),
      some (pin 8 4 .output .int [⟨9⟩]), some (pin 9 5 .input .int [⟨8⟩])]⟩
    order := [⟨0⟩, ⟨1⟩, ⟨2⟩, ⟨3⟩, ⟨4⟩, ⟨5⟩, ⟨6⟩] }

theorem pruneIsolated_spec_attic :
    let (removed, g) := attic.pruneIsolated [⟨0⟩, ⟨9⟩] true
    attic.WellFormed ∧ removed = [⟨4⟩, ⟨5⟩] ∧ ¬attic.Kept [⟨0⟩, ⟨9⟩] true ⟨5⟩ ∧
      (∀ n ∈ g.order, attic.Kept [⟨0⟩, ⟨9⟩] true n) ∧ g.linksOf ⟨5⟩ = [⟨4⟩] ∧
      g.pruneIsolated [⟨0⟩, ⟨9⟩] true = ([], g) := by
  have hwf : attic.WellFormed := by decide
  obtain ⟨removed, g, hprune, hkept, -, hremoved, -, hagain⟩ :=
    pruneIsolated_spec hwf [⟨0⟩, ⟨9⟩] true
  have hcalls : (attic.pruneIsolated [⟨0⟩, ⟨9⟩] true).1 = [⟨4⟩, ⟨5⟩] := by decide +kernel
  have hlinks : (attic.pruneIsolated [⟨0⟩, ⟨9⟩] true).2.linksOf ⟨5⟩ = [⟨4⟩] := by decide +kernel
  rw [hprune] at hcalls hlinks ⊢
  refine ⟨hwf, hcalls, ((hremoved ⟨5⟩).1 ?_).2, fun n hn ↦ (hkept n).1 hn, hlinks, hagain⟩
  simp [show removed = [⟨4⟩, ⟨5⟩] from hcalls]

end Graph

end VisualScript
