import VisualScript.Expand.SpawnGrid
import VisualScript.Proofs.Graph.Fragment
import VisualScript.Schema

/-!
# Framed graphs

A graph that is expanded for inspection gets a frame around each section, which is a comment without
pins.  Nodes that come after a frame have higher numbers than they have without it, and that is all
the difference that frames make.
-/

namespace VisualScript

/-! ## Lists with more members -/

/-- The second list has a counterpart of each member of the first, in the same order, and more
members in between. -/
inductive Spread {α β : Type} (R : α → β → Prop) (more : β → Prop) : List α → List β → Prop
  | nil : Spread R more [] []
  | skip {l : List α} {l' : List β} {b : β} : more b → Spread R more l l' →
      Spread R more l (b :: l')
  | cons {l : List α} {l' : List β} {a : α} {b : β} : R a b → Spread R more l l' →
      Spread R more (a :: l) (b :: l')

namespace Spread

variable {α β : Type} {R : α → β → Prop} {more : β → Prop} {l k : List α} {l' k' : List β}

theorem append (h : Spread R more l l') (hk : Spread R more k k') :
    Spread R more (l ++ k) (l' ++ k') := by
  induction h with
  | nil => exact hk
  | skip hb _ ih => exact .skip hb ih
  | cons hab _ ih => exact .cons hab ih

theorem of_map {f : α → β} (h : ∀ a ∈ l, R a (f a)) : Spread R more l (l.map f) := by
  induction l with
  | nil => exact .nil
  | cons a l ih =>
    obtain ⟨ha, hl⟩ := List.forall_mem_cons.1 h
    exact .cons ha (ih hl)

theorem mono {R' : α → β → Prop} {more' : β → Prop} (h : Spread R more l l')
    (hR : ∀ a ∈ l, ∀ b ∈ l', R a b → R' a b) (hmore : ∀ b ∈ l', more b → more' b) :
    Spread R' more' l l' := by
  induction h with
  | nil => exact .nil
  | skip hb _ ih =>
    obtain ⟨hb', hmore⟩ := List.forall_mem_cons.1 hmore
    exact .skip (hb' hb) (ih (fun a ha c hc ↦ hR a ha c (List.mem_cons_of_mem _ hc)) hmore)
  | cons hab _ ih =>
    refine .cons (hR _ List.mem_cons_self _ List.mem_cons_self hab) (ih (fun a ha c hc ↦ ?_)
      fun c hc ↦ hmore c (List.mem_cons_of_mem _ hc))
    exact hR a (List.mem_cons_of_mem _ ha) c (List.mem_cons_of_mem _ hc)

theorem exists_right {a : α} (h : Spread R more l l') (ha : a ∈ l) : ∃ b ∈ l', R a b := by
  induction h with
  | nil => cases ha
  | skip _ _ ih =>
    obtain ⟨b, hb, hab⟩ := ih ha
    exact ⟨b, List.mem_cons_of_mem _ hb, hab⟩
  | cons hab _ ih =>
    rcases List.mem_cons.1 ha with rfl | ha
    · exact ⟨_, List.mem_cons_self, hab⟩
    · obtain ⟨b, hb, hab⟩ := ih ha
      exact ⟨b, List.mem_cons_of_mem _ hb, hab⟩

theorem more_or_exists {b : β} (h : Spread R more l l') (hb : b ∈ l') :
    more b ∨ ∃ a ∈ l, R a b := by
  induction h with
  | nil => cases hb
  | skip hmore _ ih =>
    rcases List.mem_cons.1 hb with rfl | hb
    · exact .inl hmore
    · exact ih hb
  | cons hab _ ih =>
    rcases List.mem_cons.1 hb with rfl | hb
    · exact .inr ⟨_, List.mem_cons_self, hab⟩
    · exact (ih hb).imp_right fun ⟨a, ha, hab⟩ ↦ ⟨a, List.mem_cons_of_mem _ ha, hab⟩

/-- What steps for counterparts keep, and steps for the other members too, whole walks keep. -/
theorem foldl {σ τ : Type} {S : σ → τ → Prop} {f : σ → α → σ} {f' : τ → β → τ}
    (h : Spread R more l l') (hskip : ∀ s t b, b ∈ l' → more b → S s t → S s (f' t b))
    (hcons : ∀ s t a b, a ∈ l → b ∈ l' → R a b → S s t → S (f s a) (f' t b)) {s : σ} {t : τ}
    (hst : S s t) : S (l.foldl f s) (l'.foldl f' t) := by
  induction h generalizing s t with
  | nil => exact hst
  | skip hb _ ih =>
    refine ih (fun s t b hb ↦ hskip s t b (List.mem_cons_of_mem _ hb))
      (fun s t a b ha hb ↦ hcons s t a b ha (List.mem_cons_of_mem _ hb)) ?_
    exact hskip s t _ List.mem_cons_self hb hst
  | cons hab _ ih =>
    refine ih (fun s t b hb ↦ hskip s t b (List.mem_cons_of_mem _ hb))
      (fun s t a b ha hb ↦ hcons s t a b (List.mem_cons_of_mem _ ha) (List.mem_cons_of_mem _ hb)) ?_
    exact hcons s t _ _ List.mem_cons_self List.mem_cons_self hab hst

theorem mem_iff {f : α → β} (hf : Function.Injective f) {a : α} (hmore : ¬more (f a))
    (h : Spread (fun a b ↦ b = f a) more l l') : f a ∈ l' ↔ a ∈ l := by
  constructor
  · intro ha
    obtain ⟨b, hb, heq⟩ := (h.more_or_exists ha).resolve_left hmore
    rwa [hf heq]
  · intro ha
    obtain ⟨b, hb, rfl⟩ := h.exists_right ha
    exact hb

/-- A selection that leaves the other members out. -/
theorem filterMap {γ δ : Type} {u : α → Option γ} {v : β → Option δ} {e : γ → δ}
    (h : Spread R more l l') (hskip : ∀ b, more b → v b = none)
    (hcons : ∀ a b, R a b → v b = (u a).map e) : l'.filterMap v = (l.filterMap u).map e := by
  induction h with
  | nil => rfl
  | skip hb _ ih => rw [List.filterMap_cons_none (hskip _ hb), ih]
  | @cons l l' a b hab _ ih =>
    rw [List.filterMap_cons, List.filterMap_cons, hcons a b hab, ih]
    cases u a <;> rfl

/-- Removing a member together with its counterparts. -/
theorem filter {p : α → Bool} {p' : β → Bool} (h : Spread R more l l')
    (hp : ∀ a b, a ∈ l → R a b → p' b = p a) : Spread R more (l.filter p) (l'.filter p') := by
  induction h with
  | nil => exact .nil
  | @skip l l' b hb _ ih =>
    rw [List.filter_cons]
    split
    · exact .skip hb (ih hp)
    · exact ih hp
  | @cons l l' a b hab _ ih =>
    have ih := ih fun a b ha ↦ hp a b (List.mem_cons_of_mem _ ha)
    rw [List.filter_cons, List.filter_cons, hp a b List.mem_cons_self hab]
    split
    · exact .cons hab ih
    · exact ih

end Spread

/-! ## Related results -/

theorem map_eq_of_rel {α β γ : Type} {R : α → β → Prop} {f : α → γ} {k : β → γ} {a : Option α}
    {b : Option β} (h : Option.Rel R a b) (hf : ∀ x y, R x y → k y = f x) :
    b.map k = a.map f := by
  cases h with
  | some hxy => exact congrArg some (hf _ _ hxy)
  | none => rfl

theorem rel_map {α β α' β' : Type} {R : α → β → Prop} {R' : α' → β' → Prop} {f : α → α'}
    {k : β → β'} {a : Option α} {b : Option β} (h : Option.Rel R a b)
    (hf : ∀ x y, R x y → R' (f x) (k y)) : Option.Rel R' (a.map f) (b.map k) := by
  cases h with
  | some hxy => exact .some (hf _ _ hxy)
  | none => exact .none

/-- Two computations fail both, or end in related results. -/
inductive BothEnd {ε α β : Type} (R : α → β → Prop) : Except ε α → Except ε β → Prop
  | ok {a : α} {b : β} : R a b → BothEnd R (.ok a) (.ok b)
  | error (e e' : ε) : BothEnd R (.error e) (.error e')

theorem BothEnd.bind {ε α β α' β' : Type} {R : α → β → Prop} {R' : α' → β' → Prop}
    {x : Except ε α} {y : Except ε β} {f : α → Except ε α'} {f' : β → Except ε β'}
    (h : BothEnd R x y) (hf : ∀ a b, R a b → BothEnd R' (f a) (f' b)) :
    BothEnd R' (x >>= f) (y >>= f') := by
  cases h with
  | ok hab => exact hf _ _ hab
  | error e e' => exact .error e e'

/-! ## Renumbered nodes -/

/-- The pin of a node that has another number. -/
def Pin.renumber (ρ : NodeId → NodeId) (p : Pin) : Pin := { p with owner := ρ p.owner }

/-- The second node is the first, maybe in another place. -/
structure Node.Moved (x y : Node) : Prop where
  id : y.id = x.id
  kind : y.kind = x.kind
  pins : y.pins = x.pins
  comment : y.comment = x.comment

/-- The first node has the number `n`, and the second is the same with the number `m`. -/
structure Node.Renumbered (n m : NodeId) (x y : Node) : Prop where
  left : x.id = n
  right : y.id = m
  kind : y.kind = x.kind
  pins : y.pins = x.pins
  comment : y.comment = x.comment

namespace Node.Renumbered

variable {n m : NodeId} {x y z : Node} (h : Renumbered n m x y)
include h

theorem moved_left (hz : x.Moved z) : Renumbered n m z y :=
  ⟨hz.id.trans h.left, h.right, h.kind.trans hz.kind.symm, h.pins.trans hz.pins.symm,
    h.comment.trans hz.comment.symm⟩

theorem moved_right (hz : y.Moved z) : Renumbered n m x z :=
  ⟨h.left, hz.id.trans h.right, hz.kind.trans h.kind, hz.pins.trans h.pins,
    hz.comment.trans h.comment⟩

end Node.Renumbered

theorem NodeKind.exists_of_isComment {kind : NodeKind} (h : kind.isComment = true) :
    ∃ text, kind = .comment text := by
  cases kind with
  | comment text => exact ⟨text, rfl⟩
  | _ => cases h

namespace Graph

/-- Whether pins can be linked is not up to the numbers of their nodes. -/
theorem makeLink_both {R : Graph → Graph → Prop} {ρ : NodeId → NodeId} (hρ : Function.Injective ρ)
    {g h : Graph} {a b : PinId} (ha : h.pin? a = (g.pin? a).map (·.renumber ρ))
    (hb : h.pin? b = (g.pin? b).map (·.renumber ρ)) (hsame : R g h)
    (hlink : R ((g.modifyPin a fun p ↦ { p with links := p.links ++ [b] }).modifyPin b
        fun p ↦ { p with links := p.links ++ [a] })
      ((h.modifyPin a fun p ↦ { p with links := p.links ++ [b] }).modifyPin b
        fun p ↦ { p with links := p.links ++ [a] })) :
    BothEnd R (g.makeLink a b) (h.makeLink a b) := by
  unfold makeLink pin
  rw [ha, hb]
  cases g.pin? a with
  | none => exact .error _ _
  | some x =>
    cases g.pin? b with
    | none => exact .error _ _
    | some y =>
      have howner : (x.renumber ρ).owner = (y.renumber ρ).owner ↔ x.owner = y.owner := hρ.eq_iff
      have hdirections : (x.renumber ρ).direction = (y.renumber ρ).direction ↔
        x.direction = y.direction := Iff.rfl
      have hlinks : b ∈ (x.renumber ρ).links ↔ b ∈ x.links := Iff.rfl
      simp only [Option.map_some, bind, Except.bind, throw, throwThe, MonadExceptOf.throw, pure,
        Except.pure, howner, hdirections, hlinks]
      by_cases hdirection : x.direction = y.direction
      · simp only [hdirection, if_true]
        exact .error _ _
      · by_cases howners : x.owner = y.owner
        · simp only [hdirection, howners, if_true, if_false]
          exact .error _ _
        · by_cases hlinked : b ∈ x.links
          · simp only [hdirection, howners, hlinked, if_true, if_false]
            exact .ok hsame
          · simp only [hdirection, howners, hlinked, if_false]
            exact .ok hlink

/-- The second graph is the first with frames, and `ρ` gives the numbers that nodes have in it. -/
structure Framed (ρ : NodeId → NodeId) (g h : Graph) : Prop where
  name : h.name = g.name
  size : h.pins.size = g.pins.size
  listed : ∀ n ∈ g.order, n.index < g.nodes.size
  listed' : ∀ m ∈ h.order, m.index < h.nodes.size
  owned : ∀ p n, g.ownerOf? p = some n → n.index < g.nodes.size
  lt : ∀ m n : NodeId, m.index < n.index → (ρ m).index < (ρ n).index
  next : ∀ i, ρ ⟨g.nodes.size + i⟩ = ⟨h.nodes.size + i⟩
  node : ∀ n, Option.Rel (Node.Renumbered n (ρ n)) (g.node? n) (h.node? (ρ n))
  pin : ∀ p, h.pin? p = (g.pin? p).map (·.renumber ρ)
  frame : ∀ m node, h.node? m = some node → (∀ n, ρ n ≠ m) →
    node.kind.isComment = true ∧ node.pins = []
  order : Spread (fun n m ↦ m = ρ n) (fun m ↦ ∀ n, ρ n ≠ m) g.order h.order

/-- A graph without frames. -/
theorem WellFormed.framed {g : Graph} (h : g.WellFormed) : Framed id g g where
  name := rfl
  size := rfl
  listed n hn := lt_of_isSome_node? ((h.mem_order n).1 hn)
  listed' n hn := lt_of_isSome_node? ((h.mem_order n).1 hn)
  owned p n hp := lt_of_isSome_node?
    ((h.mem_order n).1 (h.mem_order_of_mem_pinsOf ((h.mem_pinsOf n p).2 hp)))
  lt _ _ := id
  next _ := rfl
  node n := by
    rw [id]
    cases hnode : g.node? n with
    | none => exact .none
    | some x => exact .some ⟨h.id_eq n x hnode, h.id_eq n x hnode, rfl, rfl, rfl⟩
  pin p := by
    cases g.pin? p <;> rfl
  frame m node _ hframe := absurd rfl (hframe m)
  order := by
    have hlist : Spread (fun n m ↦ m = id n) (fun m ↦ ∀ n, id n ≠ m) g.order (g.order.map id) :=
      .of_map fun _ _ ↦ rfl
    rwa [List.map_id] at hlist

namespace Framed

variable {ρ : NodeId → NodeId} {g h : Graph} {m n : NodeId} {p q : PinId}

section Reading

variable (hf : Framed ρ g h)
include hf

theorem injective : Function.Injective ρ := by
  rintro ⟨i⟩ ⟨j⟩ heq
  rcases Nat.lt_trichotomy i j with hlt | rfl | hlt
  · exact absurd (congrArg NodeId.index heq) (Nat.ne_of_lt (hf.lt ⟨i⟩ ⟨j⟩ hlt))
  · rfl
  · exact absurd (congrArg NodeId.index heq) (Nat.ne_of_gt (hf.lt ⟨j⟩ ⟨i⟩ hlt))

theorem eq_iff : ρ m = ρ n ↔ m = n := hf.injective.eq_iff

theorem kind?_eq (n : NodeId) : h.kind? (ρ n) = g.kind? n :=
  map_eq_of_rel (hf.node n) fun _ _ hxy ↦ hxy.kind

theorem kindIs_eq (n : NodeId) (p : NodeKind → Bool) : h.kindIs (ρ n) p = g.kindIs n p := by
  rw [kindIs, kindIs, hf.kind?_eq]

theorem contains_eq (n : NodeId) : h.contains (ρ n) = g.contains n := by
  have hsome := map_eq_of_rel (f := fun _ ↦ ()) (k := fun _ ↦ ()) (hf.node n) fun _ _ _ ↦ rfl
  simpa [contains] using congrArg Option.isSome hsome

theorem isPure_eq (n : NodeId) : h.isPure (ρ n) = g.isPure n := by
  have hpure := map_eq_of_rel (f := Node.isPure) (k := Node.isPure) (hf.node n) fun _ _ hxy ↦ by
    rw [Node.isPure, Node.isPure, hxy.kind]
  have hany (x : Option Node) : x.any Node.isPure = (x.map Node.isPure).getD false := by
    cases x <;> rfl
  rw [isPure, isPure, hany, hany, hpure]

theorem pinsOf_eq (n : NodeId) : h.pinsOf (ρ n) = g.pinsOf n := by
  rw [pinsOf, pinsOf, map_eq_of_rel (hf.node n) fun _ _ hxy ↦ hxy.pins]

theorem linksOf_eq (p : PinId) : h.linksOf p = g.linksOf p := by
  rw [linksOf, linksOf, hf.pin, Option.map_map]
  rfl

theorem ownerOf?_eq (p : PinId) : h.ownerOf? p = (g.ownerOf? p).map ρ := by
  rw [ownerOf?, ownerOf?, hf.pin, Option.map_map, Option.map_map]
  rfl

theorem linkedNodes_eq (p : PinId) : h.linkedNodes p = (g.linkedNodes p).map ρ := by
  rw [linkedNodes, linkedNodes, hf.linksOf_eq, List.map_filterMap]
  exact List.filterMap_congr fun q _ ↦ hf.ownerOf?_eq q

theorem pinMatches_eq (name : String) (direction : Option Direction) :
    h.pinMatches name direction = g.pinMatches name direction := by
  funext p
  rw [pinMatches, pinMatches, hf.pin, Option.any_map]
  rfl

theorem findPin?_eq (n : NodeId) (name : String) (direction : Option Direction) :
    h.findPin? (ρ n) name direction = g.findPin? n name direction := by
  rw [findPin?, findPin?, hf.pinsOf_eq, hf.pinMatches_eq]

theorem filteredPins_eq (n : NodeId) (direction : Direction) (exec : Bool) :
    h.filteredPins (ρ n) direction exec = g.filteredPins n direction exec := by
  rw [filteredPins, filteredPins, hf.pinsOf_eq]
  refine List.filter_congr fun p _ ↦ ?_
  rw [hf.pin, Option.any_map]
  rfl

theorem execSuccessors_eq (n : NodeId) :
    h.execSuccessors (ρ n) = (g.execSuccessors n).map ρ := by
  rw [execSuccessors, execSuccessors, hf.filteredPins_eq, List.map_flatMap]
  exact List.flatMap_congr fun p _ ↦ hf.linkedNodes_eq p

theorem size_le : g.nodes.size ≤ n.index ↔ h.nodes.size ≤ (ρ n).index := by
  have hsize : (ρ ⟨g.nodes.size⟩).index = h.nodes.size := congrArg NodeId.index (hf.next 0)
  rw [← hsize]
  constructor
  · intro hle
    rcases Nat.lt_or_eq_of_le hle with hlt | heq
    · exact Nat.le_of_lt (hf.lt ⟨g.nodes.size⟩ n hlt)
    · exact Nat.le_of_eq (congrArg (fun i ↦ (ρ ⟨i⟩).index) heq)
  · intro hle
    by_contra hlt
    exact absurd (hf.lt n ⟨g.nodes.size⟩ (Nat.not_le.1 hlt)) (Nat.not_lt.2 hle)

/-- The nodes of some kinds, none of which is a comment. -/
theorem nodesWhere_eq {p : NodeKind → Bool} (hp : ∀ text, p (.comment text) = false) :
    h.nodesWhere p = (g.nodesWhere p).map ρ := by
  have hselect (g : Graph) : g.nodesWhere p =
      g.order.filterMap fun n ↦ (g.node? n).bind fun x ↦ if p x.kind then some x.id else none := by
    rw [nodesWhere, liveNodes, ← List.filterMap_eq_filter, List.map_filterMap,
      List.filterMap_filterMap]
    refine List.filterMap_congr fun n _ ↦ ?_
    cases g.node? n with
    | none => rfl
    | some x => cases hx : p x.kind <;> simp [Option.guard, hx]
  rw [hselect, hselect]
  refine hf.order.filterMap (fun m hm ↦ ?_) fun n m hnm ↦ ?_
  · cases hnode : h.node? m with
    | none => rfl
    | some x =>
      obtain ⟨text, htext⟩ := NodeKind.exists_of_isComment (hf.frame m x hnode hm).1
      simp [htext, hp]
  · rw [hnm]
    have hnode := hf.node n
    generalize g.node? n = x at hnode
    generalize h.node? (ρ n) = y at hnode
    cases hnode with
    | none => rfl
    | @some x y hxy =>
      rw [Option.bind_some, Option.bind_some, hxy.kind, hxy.left, hxy.right]
      split <;> rfl

theorem lt_of_mem_nodesWhere {p : NodeKind → Bool} (hn : n ∈ g.nodesWhere p) :
    n.index < g.nodes.size := by
  obtain ⟨x, hx, rfl⟩ := List.mem_map.1 hn
  obtain ⟨m, hm, hnode⟩ := List.mem_filterMap.1 (List.mem_filter.1 hx).1
  have hrel := hf.node m
  rw [hnode] at hrel
  generalize h.node? (ρ m) = y at hrel
  cases hrel with
  | some hxy => exact hxy.left ▸ hf.listed m hm

end Reading

/-! ## Edits in place -/

section InPlace

variable (hf : Framed ρ g h)
include hf

theorem modifyNode_left (n : NodeId) {f : Node → Node} (hmoved : ∀ x : Node, x.Moved (f x)) :
    Framed ρ (g.modifyNode n f) h where
  name := hf.name
  size := hf.size
  listed m hm := by
    rw [Graph.modifyNode, Slots.size_modify]
    exact hf.listed m hm
  listed' := hf.listed'
  owned p m hp := by
    rw [Graph.modifyNode, Slots.size_modify]
    exact hf.owned p m hp
  lt := hf.lt
  next i := by
    rw [Graph.modifyNode, Slots.size_modify]
    exact hf.next i
  node m := by
    rw [node?_modifyNode]
    split
    · have hmap := rel_map (k := id) (hf.node m) fun x y hxy ↦ hxy.moved_left (hmoved x)
      rwa [Option.map_id] at hmap
    · exact hf.node m
  pin := hf.pin
  frame := hf.frame
  order := hf.order

theorem modifyNode_right (n : NodeId) {f : Node → Node} (hmoved : ∀ x : Node, x.Moved (f x)) :
    Framed ρ g (h.modifyNode n f) where
  name := hf.name
  size := hf.size
  listed := hf.listed
  listed' m hm := by
    rw [Graph.modifyNode, Slots.size_modify]
    exact hf.listed' m hm
  owned := hf.owned
  lt := hf.lt
  next i := by
    rw [Graph.modifyNode, Slots.size_modify]
    exact hf.next i
  node m := by
    rw [node?_modifyNode]
    split
    · have hmap := rel_map (f := id) (hf.node m) fun x y hxy ↦ hxy.moved_right (hmoved y)
      rwa [Option.map_id] at hmap
    · exact hf.node m
  pin := hf.pin
  frame m y hy hm := by
    rw [node?_modifyNode] at hy
    split at hy
    · obtain ⟨x, hx, rfl⟩ := Option.map_eq_some_iff.1 hy
      rw [(hmoved x).kind, (hmoved x).pins]
      exact hf.frame m x hx hm
    · exact hf.frame m y hy hm
  order := hf.order

theorem setPosition_left (n : NodeId) (x y : Int) : Framed ρ (g.setPosition n x y) h :=
  hf.modifyNode_left n fun _ ↦ ⟨rfl, rfl, rfl, rfl⟩

theorem setPosition_right (n : NodeId) (x y : Int) : Framed ρ g (h.setPosition n x y) :=
  hf.modifyNode_right n fun _ ↦ ⟨rfl, rfl, rfl, rfl⟩

theorem offsetNodes_left (ids : List NodeId) (dx dy : Int) :
    Framed ρ (g.offsetNodes ids dx dy) h :=
  List.foldlRecOn (motive := (Framed ρ · h)) ids _ hf fun _ hg n _ ↦
    hg.modifyNode_left n fun _ ↦ ⟨rfl, rfl, rfl, rfl⟩

theorem offsetNodes_right (ids : List NodeId) (dx dy : Int) :
    Framed ρ g (h.offsetNodes ids dx dy) :=
  List.foldlRecOn (motive := (Framed ρ g ·)) ids _ hf fun _ hg n _ ↦
    hg.modifyNode_right n fun _ ↦ ⟨rfl, rfl, rfl, rfl⟩

theorem modifyPin (p : PinId) {f k : Pin → Pin} (howner : ∀ pin, (f pin).owner = pin.owner)
    (hpin : ∀ pin, k (pin.renumber ρ) = (f pin).renumber ρ) :
    Framed ρ (g.modifyPin p f) (h.modifyPin p k) where
  name := hf.name
  size := by
    rw [Graph.modifyPin, Graph.modifyPin, Slots.size_modify, Slots.size_modify, hf.size]
  listed := hf.listed
  listed' := hf.listed'
  owned q n hq := by
    rw [(SameBooks.modifyPin g p howner).owners] at hq
    exact hf.owned q n hq
  lt := hf.lt
  next := hf.next
  node := hf.node
  pin q := by
    rw [pin?_modifyPin, pin?_modifyPin, hf.pin]
    split
    · rw [Option.map_map, Option.map_map]
      exact congrArg (Option.map · _) (funext hpin)
    · rfl
  frame := hf.frame
  order := hf.order

theorem setDefaults (p : PinId) (value : String) (object : Option String) :
    Framed ρ (g.setDefaults p value object) (h.setDefaults p value object) :=
  hf.modifyPin p (fun _ ↦ rfl) fun _ ↦ rfl

theorem breakLink (p q : PinId) : Framed ρ (g.breakLink p q) (h.breakLink p q) := by
  refine Framed.modifyPin (Framed.modifyPin hf p ?_ ?_) q ?_ ?_ <;> exact fun _ ↦ rfl

theorem breakPinLinks (p : PinId) : Framed ρ (g.breakPinLinks p) (h.breakPinLinks p) := by
  rw [Graph.breakPinLinks, Graph.breakPinLinks, hf.linksOf_eq]
  generalize g.linksOf p = links
  induction links generalizing g h with
  | nil => exact hf
  | cons q links ih => exact ih (hf.breakLink p q)

theorem breakAll (ps : List PinId) :
    Framed ρ (ps.foldl Graph.breakPinLinks g) (ps.foldl Graph.breakPinLinks h) := by
  induction ps generalizing g h with
  | nil => exact hf
  | cons p ps ih => exact ih (hf.breakPinLinks p)

theorem makeLink (p q : PinId) : BothEnd (Framed ρ) (g.makeLink p q) (h.makeLink p q) := by
  refine makeLink_both hf.injective (hf.pin p) (hf.pin q) hf ?_
  refine Framed.modifyPin (Framed.modifyPin hf p ?_ ?_) q ?_ ?_ <;> exact fun _ ↦ rfl

end InPlace

/-! ## New pins and nodes -/

section Adding

variable (hf : Framed ρ g h)
include hf

omit hf in
theorem lt_size_push {nodes : Slots Node} {order : List NodeId} {x : Node}
    (horder : ∀ n ∈ order, n.index < nodes.size) :
    ∀ n ∈ order ++ [⟨nodes.size⟩], n.index < (nodes.push x).size := by
  intro n hn
  rw [Slots.size_push]
  rcases List.mem_append.1 hn with hn | hn
  · exact Nat.lt_succ_of_lt (horder n hn)
  · rw [List.mem_singleton.1 hn]
    exact Nat.lt_succ_self _

theorem allocPin (hn : n.index < g.nodes.size) (direction : Direction) (desc : PinDescription) :
    (h.allocPin (ρ n) direction desc).1 = (g.allocPin n direction desc).1 ∧
      Framed ρ (g.allocPin n direction desc).2 (h.allocPin (ρ n) direction desc).2 := by
  refine ⟨congrArg PinId.mk hf.size, ?_⟩
  have hfresh (g : Graph) (m : NodeId) (p : PinId) : (g.allocPin m direction desc).2.ownerOf? p =
      if p = ⟨g.pins.size⟩ then some m else g.ownerOf? p := by
    rw [ownerOf?, pin?_allocPin]
    split <;> rfl
  refine ⟨hf.name, ?_, ?_, ?_, ?_, hf.lt, ?_, fun m ↦ ?_, fun p ↦ ?_, fun m y hy hm ↦ ?_, hf.order⟩
  · simp only [Graph.allocPin, Graph.modifyNode, Slots.size_push, hf.size]
  · simpa only [Graph.allocPin, Graph.modifyNode, Slots.size_modify] using hf.listed
  · simpa only [Graph.allocPin, Graph.modifyNode, Slots.size_modify] using hf.listed'
  · intro p m hp
    simp only [Graph.allocPin, Graph.modifyNode, Slots.size_modify]
    rw [hfresh] at hp
    split at hp
    · obtain rfl := Option.some.inj hp
      exact hn
    · exact hf.owned p m hp
  · simpa only [Graph.allocPin, Graph.modifyNode, Slots.size_modify] using hf.next
  · rw [node?_allocPin, node?_allocPin, hf.size]
    by_cases hnm : n = m
    · rw [if_pos hnm, if_pos (congrArg ρ hnm)]
      refine rel_map (hf.node m) fun x y hxy ↦ ⟨hxy.left, hxy.right, hxy.kind, ?_, hxy.comment⟩
      rw [hxy.pins]
    · rw [if_neg hnm, if_neg (mt hf.eq_iff.1 hnm)]
      exact hf.node m
  · rw [pin?_allocPin, pin?_allocPin, hf.size]
    split
    · rfl
    · exact hf.pin p
  · rw [node?_allocPin, if_neg (hm n)] at hy
    exact hf.frame m y hy hm

theorem allocPins (hn : n.index < g.nodes.size) (pins : List (Direction × PinDescription)) :
    Framed ρ (pins.foldl (fun g p ↦ (g.allocPin n p.1 p.2).2) g)
      (pins.foldl (fun h p ↦ (h.allocPin (ρ n) p.1 p.2).2) h) := by
  induction pins generalizing g h with
  | nil => exact hf
  | cons p pins ih =>
    refine ih (hf.allocPin hn p.1 p.2).2 ?_
    simpa only [Graph.allocPin, Graph.modifyNode, Slots.size_modify] using hn

theorem addPin (n : NodeId) (direction : Direction) (desc : PinDescription) :
    BothEnd (fun x y ↦ y.1 = x.1 ∧ Framed ρ x.2 y.2) (g.addPin n direction desc)
      (h.addPin (ρ n) direction desc) := by
  unfold Graph.addPin
  rw [hf.contains_eq]
  split
  · next hn => exact .ok (hf.allocPin (lt_of_isSome_node? hn) direction desc)
  · exact .error _ _

/-- A node that both graphs get has the next number in both. -/
theorem spawn (kind : NodeKind) : (h.spawn kind).1 = ρ (g.spawn kind).1 ∧
    Framed ρ (g.spawn kind).2 (h.spawn kind).2 := by
  have hnew : ρ ⟨g.nodes.size⟩ = ⟨h.nodes.size⟩ := hf.next 0
  have hpushed : Framed ρ
      { g with
        nodes := g.nodes.push { id := ⟨g.nodes.size⟩, kind, pins := [] }
        order := g.order ++ [⟨g.nodes.size⟩] }
      { h with
        nodes := h.nodes.push { id := ⟨h.nodes.size⟩, kind, pins := [] }
        order := h.order ++ [⟨h.nodes.size⟩] } := by
    refine ⟨hf.name, hf.size, lt_size_push hf.listed, lt_size_push hf.listed',
      fun p m hp ↦ ?_, hf.lt, fun i ↦ ?_, fun m ↦ ?_, hf.pin, fun m y hy hm ↦ ?_,
      hf.order.append (.cons hnew.symm .nil)⟩
    · rw [Slots.size_push]
      exact Nat.lt_succ_of_lt (hf.owned p m hp)
    · have hi := hf.next (i + 1)
      rw [Slots.size_push, Slots.size_push, Nat.add_right_comm, Nat.add_right_comm h.nodes.size]
      exact hi
    · rw [node?, node?, Slots.get?_push, Slots.get?_push]
      by_cases hm : m.index = g.nodes.size
      · have hρ : (ρ m).index = h.nodes.size := by
          rw [show m = ⟨g.nodes.size⟩ from congrArg NodeId.mk hm, hnew]
        rw [if_pos hm, if_pos hρ]
        exact .some ⟨(congrArg NodeId.mk hm).symm, (congrArg NodeId.mk hρ).symm, rfl, rfl, rfl⟩
      · have hρ : (ρ m).index ≠ h.nodes.size := fun heq ↦ hm <| congrArg NodeId.index <|
          hf.injective ((congrArg NodeId.mk heq).trans hnew.symm : ρ m = ρ ⟨g.nodes.size⟩)
        rw [if_neg hm, if_neg hρ]
        exact hf.node m
    · rw [node?, Slots.get?_push] at hy
      split at hy
      · next heq => exact absurd (hnew.trans (congrArg NodeId.mk heq).symm) (hm _)
      · exact hf.frame m y hy hm
  refine ⟨hnew.symm, ?_⟩
  have hspawned := hpushed.allocPins (n := ⟨g.nodes.size⟩)
    (by rw [Slots.size_push]; exact Nat.lt_succ_self _) kind.startingPins
  rwa [hnew] at hspawned

theorem spawnIntermediate (kind : NodeKind) :
    (h.spawnIntermediate kind).1 = ρ (g.spawnIntermediate kind).1 ∧
      Framed ρ (g.spawnIntermediate kind).2 (h.spawnIntermediate kind).2 := by
  obtain ⟨hid, hspawned⟩ := hf.spawn kind
  refine ⟨hid, Framed.modifyNode_right (Framed.modifyNode_left hspawned _ ?_) _ ?_⟩ <;>
    exact fun _ ↦ ⟨rfl, rfl, rfl, rfl⟩

section Moved

/-- The renumbering once the nodes to come move up by one. -/
def movedUp (size : Nat) (ρ : NodeId → NodeId) (n : NodeId) : NodeId :=
  if n.index < size then ρ n else ⟨(ρ n).index + 1⟩

omit hf in
theorem movedUp_of_lt {size : Nat} (hn : n.index < size) : movedUp size ρ n = ρ n := if_pos hn

omit hf in
theorem movedUp_of_le {size : Nat} (hn : size ≤ n.index) :
    movedUp size ρ n = ⟨(ρ n).index + 1⟩ :=
  if_neg (Nat.not_lt.2 hn)

/-- The number that the nodes make way for stands for none of them. -/
theorem index_movedUp_ne (n : NodeId) : (movedUp g.nodes.size ρ n).index ≠ h.nodes.size := by
  rcases Nat.lt_or_ge n.index g.nodes.size with hn | hn
  · rw [movedUp_of_lt hn]
    exact Nat.ne_of_lt (Nat.not_le.1 fun hle ↦ Nat.not_le.2 hn (hf.size_le.2 hle))
  · rw [movedUp_of_le hn]
    exact Nat.ne_of_gt (Nat.lt_succ_of_le (hf.size_le.1 hn))

theorem movedUp_lt (m n : NodeId) (hmn : m.index < n.index) :
    (movedUp g.nodes.size ρ m).index < (movedUp g.nodes.size ρ n).index := by
  have hlt := hf.lt m n hmn
  rcases Nat.lt_or_ge n.index g.nodes.size with hn | hn
  · rwa [movedUp_of_lt hn, movedUp_of_lt (Nat.lt_trans hmn hn)]
  · rw [movedUp_of_le hn]
    rcases Nat.lt_or_ge m.index g.nodes.size with hm | hm
    · rw [movedUp_of_lt hm]
      exact Nat.lt_succ_of_lt hlt
    · rw [movedUp_of_le hm]
      exact Nat.succ_lt_succ hlt

theorem movedUp_ne_of_ne {m : NodeId} (hm : m.index < h.nodes.size) (hnot : ∀ n, ρ n ≠ m)
    (n : NodeId) : movedUp g.nodes.size ρ n ≠ m := by
  intro heq
  rcases Nat.lt_or_ge n.index g.nodes.size with hn | hn
  · exact hnot n ((movedUp_of_lt hn).symm.trans heq)
  · rw [← heq, movedUp_of_le hn] at hm
    exact absurd (hf.size_le.1 hn) (Nat.not_le.2 (Nat.lt_of_succ_lt hm))

theorem ne_of_movedUp_ne {m : NodeId} (hm : m.index < h.nodes.size)
    (hnot : ∀ n, movedUp g.nodes.size ρ n ≠ m) (n : NodeId) : ρ n ≠ m := by
  rintro rfl
  rcases Nat.lt_or_ge n.index g.nodes.size with hn | hn
  · exact hnot n (movedUp_of_lt hn)
  · exact absurd hm (Nat.not_lt.2 (hf.size_le.1 hn))

/-- A frame without pins on the canvas. -/
theorem pushFrame (text : String) : Framed (movedUp g.nodes.size ρ) g
    { h with
      nodes := h.nodes.push { id := ⟨h.nodes.size⟩, kind := .comment text, pins := [] }
      order := h.order ++ [⟨h.nodes.size⟩] } := by
  have hnode (m : NodeId) (hm : m.index ≠ h.nodes.size) : node? { h with
      nodes := h.nodes.push { id := ⟨h.nodes.size⟩, kind := .comment text, pins := [] }
      order := h.order ++ [⟨h.nodes.size⟩] } m = h.node? m := by
    rw [node?, Slots.get?_push, if_neg hm]
    rfl
  exact {
    name := hf.name
    size := hf.size
    listed := hf.listed
    listed' := lt_size_push hf.listed'
    owned := hf.owned
    lt := hf.movedUp_lt
    next i := by
      rw [movedUp_of_le (Nat.le_add_right _ i), hf.next, Slots.size_push, Nat.add_right_comm]
    node n := by
      rw [hnode _ (hf.index_movedUp_ne n)]
      rcases Nat.lt_or_ge n.index g.nodes.size with hn | hn
      · rw [movedUp_of_lt hn]
        exact hf.node n
      · have hleft : g.node? n = none := Slots.get?_eq_none_of_size_le hn
        have hright : h.node? (movedUp g.nodes.size ρ n) = none := by
          rw [movedUp_of_le hn]
          exact Slots.get?_eq_none_of_size_le (Nat.le_succ_of_le (hf.size_le.1 hn))
        rw [hleft, hright]
        exact .none
    pin p := by
      refine (hf.pin p).trans ?_
      cases hp : g.pin? p with
      | none => rfl
      | some x =>
        have howner : movedUp g.nodes.size ρ x.owner = ρ x.owner :=
          movedUp_of_lt (hf.owned p x.owner (ownerOf?_of_pin? hp))
        simp only [Option.map_some, Pin.renumber, howner]
    frame m y hy hm := by
      by_cases hindex : m.index = h.nodes.size
      · rw [node?, Slots.get?_push, if_pos hindex] at hy
        cases hy
        exact ⟨rfl, rfl⟩
      · rw [hnode m hindex] at hy
        have hlive := lt_of_isSome_node? (Option.isSome_iff_exists.2 ⟨y, hy⟩)
        exact hf.frame m y hy (hf.ne_of_movedUp_ne hlive hm)
    order := by
      have hframe : ∀ n, movedUp g.nodes.size ρ n ≠ ⟨h.nodes.size⟩ := fun n heq ↦
        hf.index_movedUp_ne n (congrArg NodeId.index heq)
      have horder : Spread (fun n m ↦ m = movedUp g.nodes.size ρ n)
          (fun m ↦ ∀ n, movedUp g.nodes.size ρ n ≠ m) g.order h.order :=
        hf.order.mono (fun n hn _ _ hnm ↦ hnm.trans (movedUp_of_lt (hf.listed n hn)).symm)
          fun m hm hnot ↦ hf.movedUp_ne_of_ne (hf.listed' m hm) hnot
      have happend := horder.append (.skip hframe .nil)
      rwa [List.append_nil] at happend }

end Moved

/-- A frame moves the numbers of the nodes to come. -/
theorem spawnFrame (text : String) : ∃ ρ', (∀ n : NodeId, n.index < g.nodes.size → ρ' n = ρ n) ∧
    Framed ρ' g (h.spawnIntermediate (.comment text)).2 :=
  ⟨movedUp g.nodes.size ρ, fun _ ↦ movedUp_of_lt,
    (hf.pushFrame text).modifyNode_right _ fun _ ↦ ⟨rfl, rfl, rfl, rfl⟩⟩

end Adding

/-! ## Removed nodes and the order -/

section Removing

variable (hf : Framed ρ g h)
include hf

theorem removeNode (n : NodeId) : Framed ρ (g.removeNode n) (h.removeNode (ρ n)) := by
  cases hn : g.contains n with
  | false =>
    rw [removeNode_of_not_contains hn, removeNode_of_not_contains ((hf.contains_eq n).trans hn)]
    exact hf
  | true =>
    have hn' : h.contains (ρ n) = true := (hf.contains_eq n).trans hn
    have hbroken : Framed ρ (g.breakNodeLinks n) (h.breakNodeLinks (ρ n)) := by
      rw [breakNodeLinks, breakNodeLinks, hf.pinsOf_eq]
      exact hf.breakAll _
    have hbooks := sameBooks_breakNodeLinks g n
    have hsize (ps : List PinId) (pins : Slots Pin) :
        (ps.foldl (fun pins p ↦ pins.free p.index) pins).size = pins.size :=
      List.foldlRecOn (motive := fun s : Slots Pin ↦ s.size = pins.size) ps _ rfl
        fun s hs p _ ↦ (Slots.size_free s p.index).trans hs
    have hnodes (g : Graph) {n : NodeId} (hn : g.contains n = true) :
        (g.removeNode n).nodes.size = (g.breakNodeLinks n).nodes.size := by
      simp only [Graph.removeNode, hn, if_true, Slots.size_free]
    have hpins (g : Graph) {n : NodeId} (hn : g.contains n = true) :
        (g.removeNode n).pins.size = (g.breakNodeLinks n).pins.size := by
      simp only [Graph.removeNode, hn, if_true, hsize]
    refine ⟨?_, ?_, fun m hm ↦ ?_, fun m hm ↦ ?_, fun p m hp ↦ ?_, hf.lt, fun i ↦ ?_, fun m ↦ ?_,
      fun p ↦ ?_, fun m y hy hm ↦ ?_, ?_⟩
    · simp only [Graph.removeNode, hn, hn', if_true]
      exact hbroken.name
    · rw [hpins g hn, hpins h hn', hbroken.size]
    · rw [hnodes g hn]
      rw [order_removeNode hn] at hm
      exact hbroken.listed m (hbooks.order ▸ (List.mem_filter.1 hm).1)
    · rw [hnodes h hn']
      rw [order_removeNode hn'] at hm
      exact hbroken.listed' m ((sameBooks_breakNodeLinks h (ρ n)).order ▸ (List.mem_filter.1 hm).1)
    · rw [hnodes g hn]
      rw [ownerOf?, pin?_removeNode hn] at hp
      split at hp
      · cases hp
      · exact hbroken.owned p m hp
    · rw [hnodes g hn, hnodes h hn']
      exact hbroken.next i
    · rw [node?_removeNode hn, node?_removeNode hn']
      by_cases hnm : n = m
      · rw [if_pos hnm, if_pos (congrArg ρ hnm)]
        exact .none
      · rw [if_neg hnm, if_neg (mt hf.eq_iff.1 hnm)]
        exact hbroken.node m
    · rw [pin?_removeNode hn, pin?_removeNode hn', hf.pinsOf_eq]
      split
      · rfl
      · exact hbroken.pin p
    · rw [node?_removeNode hn', if_neg (hm n)] at hy
      exact hbroken.frame m y hy hm
    · rw [order_removeNode hn, order_removeNode hn']
      refine hf.order.filter fun a b _ hab ↦ ?_
      simp only [hab, ne_eq, hf.eq_iff]

theorem setOrder (n : NodeId) : Framed ρ (g.setOrder [n]) (h.setOrder [ρ n]) := by
  have hfirst : Spread (fun n m ↦ m = ρ n) (fun m ↦ ∀ n, ρ n ≠ m) ([n].filter g.contains)
      ([ρ n].filter h.contains) := by
    have hone : Spread (fun n m ↦ m = ρ n) (fun m ↦ ∀ n, ρ n ≠ m) [n] [ρ n] := .cons rfl .nil
    refine hone.filter fun a b _ hab ↦ ?_
    rw [hab, hf.contains_eq]
  have horder : Spread (fun n m ↦ m = ρ n) (fun m ↦ ∀ n, ρ n ≠ m) (g.setOrder [n]).order
      (h.setOrder [ρ n]).order := by
    refine hf.order.foldl (fun s t m _ hm hst ↦ ?_) (fun s t a b _ _ hab hst ↦ ?_) hfirst
    · split
      · exact hst
      · have happend := hst.append (.skip hm .nil)
        rwa [List.append_nil] at happend
    · have hmem : b ∈ t ↔ a ∈ s := by
        rw [hab]
        exact hst.mem_iff hf.injective fun hmore ↦ hmore a rfl
      simp only [hmem]
      split
      · exact hst
      · exact hst.append (.cons hab .nil)
  have hlisted (g : Graph) (n m : NodeId) (horder : ∀ n ∈ g.order, n.index < g.nodes.size)
      (hm : m ∈ (g.setOrder [n]).order) : m.index < g.nodes.size := by
    rcases mem_foldl_order.1 hm with hm | hm
    · exact lt_of_isSome_node? (List.mem_filter.1 hm).2
    · exact horder m hm
  exact ⟨hf.name, hf.size, fun m ↦ hlisted g n m hf.listed, fun m ↦ hlisted h (ρ n) m hf.listed',
    hf.owned, hf.lt, hf.next, hf.node, hf.pin, hf.frame, horder⟩

end Removing

/-! ## Merged fragments -/

section Merging

variable (hf : Framed ρ g h) {fragment : Graph} (hwf : fragment.WellFormed)
include hf

theorem remapPin?_eq (p : PinId) :
    (h.mergeFragment fragment).1.pin? p = (g.mergeFragment fragment).1.pin? p := by
  change (Remap.ofNodes _ _ _).pin? p = (Remap.ofNodes _ _ _).pin? p
  rw [hf.size]
  rfl

include hwf in
theorem remapNode?_eq (n : NodeId) : (h.mergeFragment fragment).1.node? n =
    ((g.mergeFragment fragment).1.node? n).map ρ := by
  by_cases hn : n ∈ fragment.order
  · obtain ⟨node, hnode⟩ := Option.isSome_iff_exists.1 ((hwf.mem_order n).1 hn)
    obtain rfl := hwf.id_eq n node hnode
    obtain ⟨i, hi⟩ := List.getElem?_of_mem (hwf.mem_liveNodes.2 hnode)
    have hboth (host : Graph) : (host.mergeFragment fragment).1.node? node.id =
      some ⟨host.nodes.size + i⟩ := node?_remapInto hwf hi
    rw [hboth, hboth, Option.map_some, hf.next]
  · have hnone (host : Graph) : (host.mergeFragment fragment).1.node? n = none := by
      refine Option.eq_none_iff_forall_ne_some.2 fun m hm ↦ hn ?_
      obtain ⟨i, hi, heq⟩ := List.mem_mapIdx.1 (Assoc.mem_of_lookup_setAll hm)
      have hid : (fragment.liveNodes[i]).id = n := congrArg Prod.fst heq
      rw [← hid, ← hwf.map_id_liveNodes]
      exact List.mem_map_of_mem (List.getElem_mem hi)
    rw [hnone, hnone]
    rfl

include hwf in
theorem renamedPins_eq : fragment.renamedPins (h.mergeFragment fragment).1 =
    (fragment.renamedPins (g.mergeFragment fragment).1).map (·.renumber ρ) := by
  rw [renamedPins, renamedPins, List.map_flatMap]
  refine List.flatMap_congr fun node hnode ↦ ?_
  rw [List.map_filterMap]
  refine List.filterMap_congr fun p _ ↦ ?_
  rw [Option.map_map]
  congr 1
  funext pin
  obtain ⟨i, hi⟩ := List.getElem?_of_mem hnode
  have hnew : (g.mergeFragment fragment).1.node? node.id = some ⟨g.nodes.size + i⟩ :=
    node?_remapInto hwf hi
  simp only [Function.comp_apply, Remap.renamePin, Pin.renumber, hf.remapPin?_eq,
    hf.remapNode?_eq hwf, hnew, Option.map_some, Option.getD_some]

omit hf in
theorem size_mergeFragment (g fragment : Graph) :
    (g.mergeFragment fragment).2.nodes.size = g.nodes.size + fragment.liveNodes.length := by
  rw [Graph.mergeFragment, Slots.size_append, List.length_map]

omit hf in
include hwf in
theorem listed_mergeFragment {g : Graph} (horder : ∀ n ∈ g.order, n.index < g.nodes.size)
    (hn : n ∈ (g.mergeFragment fragment).2.order) :
    n.index < (g.mergeFragment fragment).2.nodes.size := by
  rw [size_mergeFragment]
  rw [order_mergeFragment hwf] at hn
  rcases List.mem_append.1 hn with hn | hn
  · exact Nat.lt_add_right _ (horder n hn)
  · obtain ⟨i, hi, rfl⟩ := List.mem_map.1 hn
    exact Nat.add_lt_add_left (List.mem_range.1 hi) _

include hwf in
/-- A node of the fragment has the same place among the new nodes of both graphs. -/
theorem renumbered_mergeFragment (n : NodeId) : Option.Rel (Node.Renumbered n (ρ n))
    ((g.mergeFragment fragment).2.node? n) ((h.mergeFragment fragment).2.node? (ρ n)) := by
  rw [node?_mergeFragment, node?_mergeFragment]
  by_cases hn : n.index < g.nodes.size
  · have hn' : (ρ n).index < h.nodes.size := Nat.not_le.1 fun hle ↦
      Nat.not_le.2 hn (hf.size_le.2 hle)
    rw [if_pos hn, if_pos hn']
    exact hf.node n
  · have hle : g.nodes.size ≤ n.index := Nat.not_lt.1 hn
    have hn' : ¬(ρ n).index < h.nodes.size := Nat.not_lt.2 (hf.size_le.1 hle)
    obtain ⟨i, hi⟩ := Nat.exists_eq_add_of_le hle
    obtain rfl : n = ⟨g.nodes.size + i⟩ := congrArg NodeId.mk hi
    rw [if_neg hn, if_neg hn', hf.next, Nat.add_sub_cancel_left, Nat.add_sub_cancel_left]
    cases hnode : fragment.liveNodes[i]? with
    | none => exact .none
    | some node =>
      refine .some ⟨?_, ?_, rfl, ?_, rfl⟩
      · rw [Remap.renameNode, node?_remapInto hwf hnode]
        rfl
      · rw [Remap.renameNode, node?_remapInto hwf hnode]
        rfl
      · rw [Remap.renameNode, Remap.renameNode, remapInto, remapInto]
        exact List.map_congr_left fun p _ ↦ congrArg (Option.getD · p) (hf.remapPin?_eq p)

include hwf in
theorem pin?_mergeFragment_renumber (p : PinId) : (h.mergeFragment fragment).2.pin? p =
    ((g.mergeFragment fragment).2.pin? p).map (·.renumber ρ) := by
  have hmerged (g : Graph) : (g.mergeFragment fragment).2.pin? p =
      if p.index < g.pins.size then g.pin? p
      else (fragment.renamedPins (g.mergeFragment fragment).1)[p.index - g.pins.size]? :=
    Slots.get?_append g.pins _ p.index
  rw [hmerged, hmerged, hf.size]
  split
  · exact hf.pin p
  · rw [hf.renamedPins_eq hwf, List.getElem?_map]

include hwf in
/-- A fragment that both graphs get. -/
theorem mergeFragment : Framed ρ (g.mergeFragment fragment).2 (h.mergeFragment fragment).2 where
  name := hf.name
  size := by
    have hpins (g : Graph) : (g.mergeFragment fragment).2.pins.size =
        g.pins.size + (fragment.renamedPins (g.mergeFragment fragment).1).length :=
      Slots.size_append g.pins _
    rw [hpins, hpins, hf.size, hf.renamedPins_eq hwf, List.length_map]
  listed _ := listed_mergeFragment hwf hf.listed
  listed' _ := listed_mergeFragment hwf hf.listed'
  owned p n hp := by
    rw [size_mergeFragment]
    rcases (ownerOf?_mergeFragment hwf).1 hp with hp | ⟨i, -, node, -, hi, -, -, -, rfl⟩
    · exact Nat.lt_add_right _ (hf.owned p n hp)
    · exact Nat.add_lt_add_left (List.getElem?_eq_some_iff.1 hi).1 _
  lt := hf.lt
  next i := by
    rw [size_mergeFragment, size_mergeFragment, Nat.add_assoc, Nat.add_assoc]
    exact hf.next _
  node := hf.renumbered_mergeFragment hwf
  pin := hf.pin?_mergeFragment_renumber hwf
  frame m y hy hm := by
    rw [node?_mergeFragment] at hy
    split at hy
    · exact hf.frame m y hy hm
    · next hge =>
      obtain ⟨i, hi⟩ := Nat.exists_eq_add_of_le (Nat.not_lt.1 hge)
      exact absurd ((hf.next i).trans (congrArg NodeId.mk hi.symm)) (hm _)
  order := by
    rw [order_mergeFragment hwf, order_mergeFragment hwf]
    refine hf.order.append ?_
    have hmap : (List.range fragment.liveNodes.length).map (fun i ↦ (⟨h.nodes.size + i⟩ : NodeId)) =
        ((List.range fragment.liveNodes.length).map fun i ↦ ⟨g.nodes.size + i⟩).map ρ := by
      rw [List.map_map]
      exact List.map_congr_left fun i _ ↦ (hf.next i).symm
    rw [hmap]
    exact .of_map fun _ _ ↦ rfl

end Merging

/-! ## Moved links -/

/-- Two edits leave related graphs, and both are stopped or none. -/
structure EditBoth (ρ : NodeId → NodeId) (e e' : Edit) : Prop where
  graph : Framed ρ e.graph e'.graph
  stopped : e'.problem?.isSome = e.problem?.isSome

section Links

variable (hf : Framed ρ g h)
include hf

theorem linkAll (target : PinId) (ps : List PinId) :
    EditBoth ρ (g.linkAll target ps) (h.linkAll target ps) := by
  induction ps generalizing g h with
  | nil => exact ⟨hf, rfl⟩
  | cons p ps ih =>
    have hlink := hf.makeLink target p
    unfold Graph.linkAll
    generalize g.makeLink target p = x at hlink
    generalize h.makeLink target p = y at hlink
    cases hlink with
    | ok hlinked => exact ih hlinked
    | error e e' => exact ⟨hf, rfl⟩

theorem pin_both (p : PinId) : BothEnd (fun x y ↦ y = x.renumber ρ) (g.pin p) (h.pin p) := by
  rw [Graph.pin, Graph.pin, hf.pin]
  cases g.pin? p with
  | none => exact .error _ _
  | some x => exact .ok rfl

theorem copyPinLinks (source target : PinId) :
    EditBoth ρ (g.copyPinLinks source target) (h.copyPinLinks source target) := by
  have hsource := hf.pin_both source
  have htarget := hf.pin_both target
  unfold Graph.copyPinLinks
  generalize g.pin source = x at hsource
  generalize h.pin source = y at hsource
  cases hsource with
  | error e e' => exact ⟨hf, rfl⟩
  | @ok x y hxy =>
    generalize g.pin target = x' at htarget
    generalize h.pin target = y' at htarget
    cases htarget with
    | error e e' => exact ⟨hf, rfl⟩
    | ok _ =>
      subst hxy
      obtain ⟨hgraph, hstopped⟩ := hf.linkAll target x.links
      dsimp only
      rw [show (x.renumber ρ).links = x.links from rfl]
      generalize g.linkAll target x.links = e at hgraph hstopped
      generalize h.linkAll target x.links = e' at hgraph hstopped
      obtain ⟨g', problem⟩ := e
      obtain ⟨h', problem'⟩ := e'
      cases problem with
      | some problem =>
        obtain ⟨problem', rfl⟩ := Option.isSome_iff_exists.1 hstopped
        exact ⟨hgraph, rfl⟩
      | none =>
        obtain rfl : problem' = none := Option.not_isSome_iff_eq_none.1 (by simpa using hstopped)
        refine ⟨hgraph.modifyPin target (fun pin ↦ ?_) fun pin ↦ ?_, rfl⟩
        · split <;> rfl
        · change (if pin.direction = .input then _ else _) = _
          split <;> rfl

theorem movePinLinks (source target : PinId) :
    EditBoth ρ (g.movePinLinks source target) (h.movePinLinks source target) := by
  obtain ⟨hgraph, hstopped⟩ := hf.copyPinLinks source target
  unfold Graph.movePinLinks
  generalize g.copyPinLinks source target = e at hgraph hstopped
  generalize h.copyPinLinks source target = e' at hgraph hstopped
  obtain ⟨g', problem⟩ := e
  obtain ⟨h', problem'⟩ := e'
  cases problem with
  | some problem =>
    obtain ⟨problem', rfl⟩ := Option.isSome_iff_exists.1 hstopped
    exact ⟨hgraph, rfl⟩
  | none =>
    obtain rfl : problem' = none := Option.not_isSome_iff_eq_none.1 (by simpa using hstopped)
    exact ⟨hgraph.breakPinLinks source, rfl⟩

theorem findPin_both (n : NodeId) (name : String) (direction : Option Direction) :
    BothEnd (fun p q ↦ q = p) (g.findPin n name direction) (h.findPin (ρ n) name direction) := by
  rw [findPin, findPin, hf.findPin?_eq]
  cases g.findPin? n name direction with
  | none => exact .error _ _
  | some p => exact .ok rfl

theorem connect (source target : NodeId) (output input : String) :
    BothEnd (Framed ρ) (g.connect source output target input)
      (h.connect (ρ source) output (ρ target) input) := by
  refine (hf.findPin_both source output _).bind ?_
  rintro a _ rfl
  refine (hf.findPin_both target input _).bind ?_
  rintro b _ rfl
  exact hf.makeLink _ _

end Links

end Framed

end Graph

end VisualScript
