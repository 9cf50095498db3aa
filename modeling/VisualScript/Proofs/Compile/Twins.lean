import VisualScript.Proofs.Code.Schedule
import VisualScript.Proofs.Compile.Pruning
import VisualScript.Proofs.Graph.Framing

/-!
# Twin graphs

Pruning takes frames and loose comments out of a graph, or leaves them in on request.  The two
graphs that come of it are the same but for these comments, which nothing that runs is linked to.
They stay so through every edit, and are scheduled alike.
-/

namespace VisualScript

open Relation

/-! ## Lists that lose members -/

/-- A selection on the left may be smaller if what is left on the right goes with the rest. -/
theorem Spread.filter_right {α β : Type} {R : α → β → Prop} {more more' : β → Prop} {l : List α}
    {l' : List β} {p : α → Bool} {p' : β → Bool} (h : Spread R more l l')
    (hmore : ∀ b, more b → p' b = true → more' b) (hkept : ∀ a b, R a b → p a = true → p' b = true)
    (hlost : ∀ a b, a ∈ l → R a b → p a = false → p' b = true → more' b) :
    Spread R more' (l.filter p) (l'.filter p') := by
  induction h with
  | nil => exact .nil
  | @skip l l' b hb _ ih =>
    rw [List.filter_cons]
    split
    · next hp => exact .skip (hmore b hb hp) (ih hlost)
    · exact ih hlost
  | @cons l l' a b hab _ ih =>
    have ih := ih fun a b ha ↦ hlost a b (List.mem_cons_of_mem _ ha)
    rw [List.filter_cons, List.filter_cons]
    by_cases hp : p a = true
    · rw [if_pos hp, if_pos (hkept a b hab hp)]
      exact .cons hab ih
    · rw [if_neg hp]
      split
      · next hp' =>
        exact .skip (hlost a b List.mem_cons_self hab (Bool.not_eq_true _ ▸ hp) hp') ih
      · exact ih

namespace Graph

variable {ρ : NodeId → NodeId} {g g' h : Graph} {m n : NodeId} {p : PinId}

/-! ## Removing by a test -/

theorem removeUnless_eq_foldl (g : Graph) (keep : Graph → NodeId → Bool) :
    (g.removeUnless keep).2 = (g.removeUnless keep).1.foldl Graph.removeNode g := by
  have hfold (l : List NodeId) (acc : List NodeId × Graph)
      (hacc : acc.2 = acc.1.foldl Graph.removeNode g) :
      let acc' := l.foldl (fun (acc : List NodeId × Graph) n ↦
        if keep acc.2 n then acc else (acc.1 ++ [n], acc.2.removeNode n)) acc
      acc'.2 = acc'.1.foldl Graph.removeNode g := by
    induction l generalizing acc with
    | nil => exact hacc
    | cons n l ih =>
      refine ih _ ?_
      dsimp only
      split
      · exact hacc
      · rw [List.foldl_append, ← hacc]
        rfl
  exact hfold g.order ([], g) rfl

namespace Framed

variable (hf : Framed ρ g h)
include hf

theorem mem_order : ρ n ∈ h.order ↔ n ∈ g.order :=
  hf.order.mem_iff hf.injective fun hframe ↦ hframe n rfl

/-- A test that keeps all frames takes the same nodes out. -/
theorem removeUnless (hwf : g.WellFormed) (hwf' : h.WellFormed) {keep keep' : Graph → NodeId → Bool}
    (hkeep : ∀ g' n, g'.node? n = g.node? n → keep g' n = keep g n)
    (hkeep' : ∀ h' n, h'.node? n = h.node? n → keep' h' n = keep' h n)
    (hsame : ∀ n, keep' h (ρ n) = keep g n)
    (hframe : ∀ m ∈ h.order, (∀ n, ρ n ≠ m) → keep' h m = true) :
    Framed ρ (g.removeUnless keep).2 (h.removeUnless keep').2 := by
  obtain ⟨_, _, hremoved, rfl, -, -⟩ := removeUnless_spec hwf keep hkeep
  obtain ⟨_, _, hremoved', rfl, -, -⟩ := removeUnless_spec hwf' keep' hkeep'
  have hnodes : h.order.filter (!keep' h ·) = (g.order.filter (!keep g ·)).map ρ := by
    have horder : Spread (fun n m ↦ m = ρ n) (fun m ↦ m ∈ h.order ∧ ∀ n, ρ n ≠ m) g.order h.order :=
      hf.order.mono (fun _ _ _ _ ↦ id) fun m hm hframe ↦ ⟨hm, hframe⟩
    rw [← List.filterMap_eq_filter, ← List.filterMap_eq_filter]
    refine horder.filterMap (fun m hm ↦ ?_) fun n m hnm ↦ ?_
    · simp [Option.guard, hframe m hm.1 hm.2]
    · rw [hnm, Option.guard, Option.guard, hsame]
      split <;> rfl
  rw [removeUnless_eq_foldl, removeUnless_eq_foldl, hremoved, hremoved', hnodes, List.foldl_map]
  exact List.foldl_rel (r := Framed ρ) hf fun n _ _ _ hf ↦ hf.removeNode n

/-! ## Walks -/

/-- What runs are the nodes that run without frames. -/
theorem runs_iff (roots : List NodeId) :
    h.Runs (roots.map ρ) m ↔ ∃ n, ρ n = m ∧ g.Runs roots n := by
  constructor
  · rintro ⟨_, hstart, horder, hwalk⟩
    obtain ⟨r, hr, rfl⟩ := List.mem_map.1 hstart
    induction hwalk with
    | refl => exact ⟨r, rfl, r, hr, hf.mem_order.1 horder, .refl⟩
    | tail _ hlast ih =>
      obtain ⟨a, rfl, r, hr, horder, hwalk⟩ := ih
      rw [hf.execSuccessors_eq] at hlast
      obtain ⟨b, hb, rfl⟩ := List.mem_map.1 hlast
      exact ⟨b, rfl, r, hr, horder, hwalk.tail hb⟩
  · rintro ⟨n, rfl, r, hr, horder, hwalk⟩
    refine ⟨ρ r, List.mem_map_of_mem hr, hf.mem_order.2 horder, ?_⟩
    refine ReflTransGen.lift ρ (fun a b hab ↦ ?_) _ _ hwalk
    change ρ b ∈ h.execSuccessors (ρ a)
    rw [hf.execSuccessors_eq]
    exact List.mem_map_of_mem hab

theorem joined_iff : h.Joined (ρ m) (ρ n) ↔ g.Joined m n := by
  unfold Joined
  simp only [hf.pinsOf_eq, hf.linkedNodes_eq, List.mem_map_of_injective hf.injective]

/-- Nothing is joined to a frame. -/
theorem exists_of_joined (hwf' : h.WellFormed) (hjoined : h.Joined (ρ n) m) : ∃ k, ρ k = m := by
  by_contra hnone
  have hpins : h.pinsOf m = [] := by
    rw [pinsOf]
    cases hnode : h.node? m with
    | none => rfl
    | some x => exact (hf.frame m x hnode fun k hk ↦ hnone ⟨k, hk⟩).2
  rcases hjoined with ⟨p, -, hm⟩ | ⟨p, hp, -⟩
  · obtain ⟨q, -, howner⟩ := mem_linkedNodes.1 hm
    have hq := (hwf'.mem_pinsOf m q).2 howner
    rw [hpins] at hq
    cases hq
  · rw [hpins] at hp
    cases hp

theorem clings_iff (hwf' : h.WellFormed) (roots : List NodeId) :
    h.Clings (roots.map ρ) m ↔ ∃ n, ρ n = m ∧ g.Clings roots n := by
  constructor
  · rintro ⟨_, hstart, hwalk⟩
    obtain ⟨r, rfl, hr⟩ := (hf.runs_iff roots).1 hstart
    induction hwalk with
    | refl => exact ⟨r, rfl, r, hr, .refl⟩
    | tail _ hlast ih =>
      obtain ⟨a, rfl, r, hr, hwalk⟩ := ih
      obtain ⟨b, rfl⟩ := hf.exists_of_joined hwf' hlast.1
      refine ⟨b, rfl, r, hr, hwalk.tail ⟨hf.joined_iff.1 hlast.1, ?_⟩⟩
      rw [← hf.isPure_eq]
      refine hlast.2.imp_left fun hruns ↦ ?_
      obtain ⟨c, hc, hruns⟩ := (hf.runs_iff roots).1 hruns
      rwa [← hf.injective hc]
  · rintro ⟨n, rfl, r, hr, hwalk⟩
    refine ⟨ρ r, (hf.runs_iff roots).2 ⟨r, rfl, hr⟩, ?_⟩
    refine ReflTransGen.lift ρ (fun a b hab ↦ ?_) _ _ hwalk
    refine ⟨hf.joined_iff.2 hab.1, hab.2.imp (fun hruns ↦ ?_) fun hpure ↦ ?_⟩
    · exact (hf.runs_iff roots).2 ⟨b, rfl, hruns⟩
    · exact (hf.isPure_eq b).trans hpure

end Framed

/-! ## Nodes apart -/

/-- Nodes that are not joined to some nodes can go without any change to the pins of these. -/
theorem pin?_foldl_removeNode (hwf : g.WellFormed) {C : NodeId → Prop}
    (hclosed : ∀ m n, C m → g.Joined m n → C n) {removed : List NodeId}
    (hremoved : ∀ n ∈ removed, ¬C n) (hp : g.ownerOf? p = some n) (hn : C n) :
    (removed.foldl Graph.removeNode g).pin? p = g.pin? p := by
  let Same (g' : Graph) : Prop := g'.WellFormed ∧
    (∀ q m, g'.ownerOf? q = some m → g.ownerOf? q = some m) ∧ g'.pin? p = g.pin? p
  suffices Same (removed.foldl Graph.removeNode g) from this.2.2
  refine List.foldlRecOn (motive := Same) removed _ ⟨hwf, fun _ _ ↦ id, rfl⟩ ?_
  rintro g' ⟨hwf', howners, hpin⟩ m hm
  cases hcontains : g'.contains m with
  | false =>
    rw [removeNode_of_not_contains hcontains]
    exact ⟨hwf', howners, hpin⟩
  | true =>
    have howner {q : PinId} (hq : q ∈ g'.pinsOf m) : g.ownerOf? q = some m :=
      howners q m ((hwf'.mem_pinsOf m q).1 hq)
    have hpins : p ∉ g'.pinsOf m := by
      intro hmem
      obtain rfl := Option.some.inj (hp.symm.trans (howner hmem))
      exact hremoved n hm hn
    refine ⟨hwf'.removeNode m, fun q k hq ↦ ?_, ?_⟩
    · rw [(sheds_removeNode hwf' hcontains).ownerOf?_eq, Option.filter_eq_some_iff] at hq
      exact howners q k hq.1
    · obtain ⟨keep, hkeep, hcut⟩ := cuts_breakNodeLinks g' hpins
      rw [pin?_removeNode hcontains, if_neg hpins, hcut, hpin]
      obtain ⟨pin, hpin, rfl⟩ := ownerOf?_eq_some.1 hp
      rw [hpin, Option.map_some, List.filter_eq_self.2 fun q hq ↦ hkeep q fun hmem ↦ ?_]
      have hlinked : m ∈ g.linkedNodes p :=
        mem_linkedNodes.2 ⟨q, mem_linksOf.2 ⟨pin, hpin, hq⟩, howner hmem⟩
      exact hremoved m hm (hclosed _ m hn (.inl ⟨p, (hwf.mem_pinsOf _ p).2 hp, hlinked⟩))

/-- The graph without the nodes that neither run nor are pure. -/
def dropDead (g : Graph) (roots : List NodeId) : Graph :=
  (g.removeUnless fun g' n ↦ n ∈ g.execReachable roots || g'.isPure n).2

section Dead

variable (hwf : g.WellFormed) (roots : List NodeId)
include hwf

theorem dropDead_spec : ∃ dead : List NodeId,
    (∀ n, n ∈ dead ↔ n ∈ g.order ∧ ¬(g.Runs roots n ∨ g.isPure n = true)) ∧
      (g.dropDead roots).WellFormed ∧ g.Sheds (· ∈ dead) (g.dropDead roots) := by
  obtain ⟨dead, g', heq, hdead, hwf', hsheds⟩ := removeUnless_spec hwf
    (fun g' n ↦ n ∈ g.execReachable roots || g'.isPure n)
    fun g' n hn ↦ by simp only [isPure, hn]
  refine ⟨dead, fun n ↦ ?_, ?_⟩
  · simp [hdead, mem_execReachable hwf]
  · rw [dropDead, heq]
    exact ⟨hwf', hsheds⟩

theorem mem_linkReachable_dropDead :
    n ∈ (g.dropDead roots).linkReachable (g.execReachable roots) ↔ g.Clings roots n := by
  obtain ⟨dead, hdead, hwf', hsheds⟩ := dropDead_spec hwf roots
  exact mem_linkReachable_iff hwf hsheds hwf' fun n hn ↦ by simp [hdead, hn, or_iff_not_imp_left]

theorem clings_of_joined (hm : g.Clings roots m) (hjoined : (g.dropDead roots).Joined m n) :
    g.Clings roots n := by
  obtain ⟨-, -, hwf', -⟩ := dropDead_spec hwf roots
  rw [← mem_linkReachable_dropDead hwf, mem_linkReachable hwf'] at hm ⊢
  obtain ⟨r, hr, horder, hwalk⟩ := hm
  exact ⟨r, hr, horder, hwalk.tail hjoined⟩

omit hwf in
theorem Clings.stays (h : g.Clings roots n) : g.Runs roots n ∨ g.isPure n = true := by
  obtain ⟨r, hr, hwalk⟩ := h
  cases hwalk with
  | refl => exact .inl hr
  | tail _ hlast => exact hlast.2

omit hwf in
theorem kept_iff_clings {keepComments : Bool} : g.Kept roots keepComments n ↔
    g.Clings roots n ∨ (keepComments = true ∧ g.kindIs n (·.isComment) = true) := by
  have hstays : g.Clings roots n → g.Runs roots n ∨ g.isPure n = true := Clings.stays roots
  have hruns : g.Runs roots n → g.Clings roots n := Runs.clings
  rw [Kept]
  tauto

/-- A pin that is left was there without the dead nodes, and its node clings to what runs or is a
comment. -/
theorem ownerOf?_pruneIsolated {keepComments : Bool}
    (hp : (g.pruneIsolated roots keepComments).2.ownerOf? p = some n) :
    (g.dropDead roots).ownerOf? p = some n ∧ g.Kept roots keepComments n := by
  obtain ⟨dead, hdead, -, hsheds⟩ := dropDead_spec hwf roots
  obtain ⟨removed, g', hprune, -, hremoved, -, hsheds'⟩ :=
    sheds_pruneIsolated hwf roots keepComments
  rw [hprune, hsheds'.ownerOf?_eq, Option.filter_eq_some_iff, Bool.not_eq_true',
    decide_eq_false_iff_not, hremoved] at hp
  obtain ⟨howner, hleft⟩ := hp
  have horder := hwf.mem_order_of_mem_pinsOf ((hwf.mem_pinsOf n p).2 howner)
  have hkept : g.Kept roots keepComments n := by
    by_contra hnot
    exact hleft ⟨horder, hnot⟩
  refine ⟨?_, hkept⟩
  rw [hsheds.ownerOf?_eq, Option.filter_eq_some_iff, Bool.not_eq_true', decide_eq_false_iff_not,
    hdead]
  refine ⟨howner, fun h ↦ h.2 ?_⟩
  rcases kept_iff_clings roots |>.1 hkept with hclings | ⟨-, hcomment⟩
  · exact hclings.stays roots
  · exact .inr (isPure_of_isComment hcomment)

/-- After the dead nodes, pruning takes nothing out that nodes which cling are linked to. -/
theorem pin?_pruneIsolated (keepComments : Bool) (hp : (g.dropDead roots).ownerOf? p = some n)
    (hn : g.Clings roots n) :
    (g.pruneIsolated roots keepComments).2.pin? p = (g.dropDead roots).pin? p := by
  obtain ⟨-, -, hwf', -⟩ := dropDead_spec hwf roots
  have hprune : (g.pruneIsolated roots keepComments).2 =
      ((g.dropDead roots).removeUnless fun g' n ↦
        n ∈ (g.dropDead roots).linkReachable (g.execReachable roots) ||
          (keepComments && g'.kindIs n (·.isComment))).2 := rfl
  obtain ⟨_, _, hremoved, rfl, -, -⟩ := removeUnless_spec hwf'
    (fun g' n ↦ n ∈ (g.dropDead roots).linkReachable (g.execReachable roots) ||
      (keepComments && g'.kindIs n (·.isComment)))
    fun g' n hn ↦ by simp only [kindIs, kind?, hn]
  rw [hprune, removeUnless_eq_foldl]
  refine pin?_foldl_removeNode hwf' (fun _ _ ↦ clings_of_joined hwf roots) (fun m hm hclings ↦ ?_)
    hp hn
  rw [hremoved, List.mem_filter] at hm
  simp [(mem_linkReachable_dropDead hwf roots).2 hclings] at hm

/-- Without comments, a pin that is left belongs to a node that clings to what runs. -/
theorem ownerOf?_pruneIsolated_false (hp : (g.pruneIsolated roots false).2.ownerOf? p = some n) :
    (g.dropDead roots).ownerOf? p = some n ∧ g.Clings roots n := by
  obtain ⟨hp, hkept⟩ := ownerOf?_pruneIsolated hwf roots hp
  exact ⟨hp, ((kept_iff_clings roots).1 hkept).resolve_right fun h ↦ Bool.noConfusion h.1⟩

open Classical in
/-- Pruning keeps the nodes that it should as they are. -/
theorem node?_pruneIsolated (keepComments : Bool) (n : NodeId) :
    (g.pruneIsolated roots keepComments).2.node? n =
      if g.Kept roots keepComments n then g.node? n else none := by
  obtain ⟨removed, g', hprune, -, hremoved, -, hsheds⟩ := sheds_pruneIsolated hwf roots keepComments
  rw [hprune, hsheds.node?]
  by_cases hmem : n ∈ removed
  · rw [if_pos (decide_eq_true hmem), if_neg ((hremoved n).1 hmem).2]
  · rw [if_neg (by simpa using hmem)]
    split
    · rfl
    · next hkept =>
      have hdead : n ∉ g.order := fun horder ↦ hmem ((hremoved n).2 ⟨horder, hkept⟩)
      rwa [hwf.mem_order, Option.not_isSome_iff_eq_none] at hdead

open Classical in
theorem order_pruneIsolated (keepComments : Bool) :
    (g.pruneIsolated roots keepComments).2.order =
      g.order.filter fun n ↦ decide (g.Kept roots keepComments n) := by
  obtain ⟨removed, g', hprune, -, hremoved, -, hsheds⟩ := sheds_pruneIsolated hwf roots keepComments
  rw [hprune, hsheds.order]
  refine List.filter_congr fun n hn ↦ ?_
  rw [← decide_not, decide_eq_decide, hremoved]
  simp [hn]

theorem wellFormed_pruneIsolated (keepComments : Bool) :
    (g.pruneIsolated roots keepComments).2.WellFormed := by
  obtain ⟨removed, g', hprune, -, -, hwf', -⟩ := sheds_pruneIsolated hwf roots keepComments
  rwa [hprune]

end Dead

/-! ## Twins -/

/-- The second list has the counterpart of each node of the first, in the same order, and nodes that
have none in between. -/
abbrev Counterparts (ρ : NodeId → NodeId) (loose : NodeId → Prop) :
    List NodeId → List NodeId → Prop :=
  Spread (fun n m ↦ m = ρ n) fun m ↦ ∀ n, ¬loose n → ρ n ≠ m

/-- The second graph is the first with other numbers and with comments that nothing is linked to.
The nodes with a counterpart are those outside of `loose`, and the pins that are the same are those
in `shared`. -/
structure Twin (ρ : NodeId → NodeId) (loose : NodeId → Prop) (shared : PinId → Prop)
    (g h : Graph) : Prop where
  injective : Function.Injective ρ
  wellFormed : g.WellFormed
  wellFormed' : h.WellFormed
  tight : ∀ n ∈ g.order, ¬loose n
  node : ∀ n, ¬loose n → Option.Rel (Node.Renumbered n (ρ n)) (g.node? n) (h.node? (ρ n))
  pin : ∀ p, shared p → h.pin? p = (g.pin? p).map (·.renumber ρ)
  pins : ∀ n p, p ∈ g.pinsOf n → shared p
  links : ∀ p pin, g.pin? p = some pin → ∀ q ∈ pin.links, shared q
  owner : ∀ p pin, g.pin? p = some pin → ¬loose pin.owner
  order : Counterparts ρ loose g.order h.order
  extra : ∀ m node, (∀ n, ¬loose n → ρ n ≠ m) → h.node? m = some node → node.kind.isComment = true

/-- A comment that is joined to nothing that runs. -/
def Loose (g : Graph) (roots : List NodeId) (n : NodeId) : Prop :=
  g.kindIs n (·.isComment) = true ∧ ¬g.Clings roots n

/-- A pin of a node that is joined to something that runs, or of no node. -/
def Shared (g : Graph) (roots : List NodeId) (p : PinId) : Prop :=
  ∀ n, (g.dropDead roots).ownerOf? p = some n → g.Clings roots n

section Pruned

variable (hwf : g.WellFormed) (hwf' : h.WellFormed) (roots : List NodeId)

/-- What a node that stays is linked to stays as well. -/
theorem shared_of_mem_links (hwf : g.WellFormed) {pin : Pin} {q : PinId}
    (hpin : (g.pruneIsolated roots false).2.pin? p = some pin) (hq : q ∈ pin.links) :
    g.Shared roots q := by
  intro m hm
  obtain ⟨howner, hn⟩ := ownerOf?_pruneIsolated_false hwf roots (ownerOf?_of_pin? hpin)
  have hdead := (dropDead_spec hwf roots).choose_spec.2.1
  rw [pin?_pruneIsolated hwf roots false howner hn] at hpin
  refine clings_of_joined hwf roots hn (.inl ⟨p, (hdead.mem_pinsOf _ p).2 howner, ?_⟩)
  exact mem_linkedNodes.2 ⟨q, mem_linksOf.2 ⟨pin, hpin, hq⟩, hm⟩

theorem clings_of_isComment (hn : ¬g.Loose roots n) (hcomment : g.kindIs n (·.isComment) = true) :
    g.Clings roots n :=
  not_not.1 fun hclings ↦ hn ⟨hcomment, hclings⟩

namespace Framed

variable (hf : Framed ρ g h)
include hf hwf'

theorem clings_image : h.Clings (roots.map ρ) (ρ n) ↔ g.Clings roots n := by
  simp only [hf.clings_iff hwf', hf.injective.eq_iff, exists_eq_left]

/-- With comments kept, only those that cling to nothing are kept besides. -/
theorem kept_image : h.Kept (roots.map ρ) true (ρ n) ↔
    g.Kept roots false n ∨ g.kindIs n (·.isComment) = true := by
  rw [kept_iff_clings, kept_iff_clings, hf.clings_image hwf', hf.kindIs_eq]
  simp

include hwf

theorem dropDead : Framed ρ (g.dropDead roots) (h.dropDead (roots.map ρ)) := by
  refine hf.removeUnless hwf hwf' (fun g' n hn ↦ by simp only [isPure, hn])
    (fun g' n hn ↦ by simp only [isPure, hn]) (fun n ↦ ?_) fun m hm hframe ↦ ?_
  · rw [hf.isPure_eq]
    congr 2
    simp only [mem_execReachable hwf, mem_execReachable hwf', hf.runs_iff, hf.injective.eq_iff,
      exists_eq_left]
  · obtain ⟨x, hx⟩ := Option.isSome_iff_exists.1 ((hwf'.mem_order m).1 hm)
    have hcomment := (hf.frame m x hx hframe).1
    have hkind : h.kindIs m (·.isComment) = true := by simp [kindIs, kind?, hx, hcomment]
    simp [isPure_of_isComment hkind]

theorem renumbered_pruneIsolated (hn : ¬g.Loose roots n) :
    Option.Rel (Node.Renumbered n (ρ n)) ((g.pruneIsolated roots false).2.node? n)
      ((h.pruneIsolated (roots.map ρ) true).2.node? (ρ n)) := by
  have hsame : h.Kept (roots.map ρ) true (ρ n) ↔ g.Kept roots false n := by
    rw [hf.kept_image hwf', or_iff_left_iff_imp]
    exact fun hcomment ↦ (kept_iff_clings roots).2 (.inl (clings_of_isComment roots hn hcomment))
  rw [node?_pruneIsolated hwf, node?_pruneIsolated hwf']
  by_cases hkept : g.Kept roots false n
  · rw [if_pos hkept, if_pos (hsame.2 hkept)]
    exact hf.node n
  · rw [if_neg hkept, if_neg (mt hsame.1 hkept)]
    exact .none

theorem pin?_pruneIsolated (hp : g.Shared roots p) :
    (h.pruneIsolated (roots.map ρ) true).2.pin? p =
      ((g.pruneIsolated roots false).2.pin? p).map (·.renumber ρ) := by
  have hdead := hf.dropDead hwf hwf' roots
  cases hfirst : (g.dropDead roots).ownerOf? p with
  | none =>
    -- the dead nodes have taken the pin with them on both sides
    have hnone : (g.pruneIsolated roots false).2.pin? p = none := by
      refine Option.eq_none_iff_forall_ne_some.2 fun pin hpin ↦ ?_
      have hp := (ownerOf?_pruneIsolated hwf _ (ownerOf?_of_pin? hpin)).1
      rw [hfirst] at hp
      cases hp
    have hnone' : (h.pruneIsolated (roots.map ρ) true).2.pin? p = none := by
      refine Option.eq_none_iff_forall_ne_some.2 fun pin hpin ↦ ?_
      have hp := (ownerOf?_pruneIsolated hwf' _ (ownerOf?_of_pin? hpin)).1
      rw [hdead.ownerOf?_eq, hfirst] at hp
      cases hp
    rw [hnone, hnone']
    rfl
  | some n =>
    have hn := hp n hfirst
    rw [Graph.pin?_pruneIsolated hwf roots false hfirst hn,
      Graph.pin?_pruneIsolated hwf' (roots.map ρ) true (n := ρ n)
        (by rw [hdead.ownerOf?_eq, hfirst, Option.map_some]) ((hf.clings_image hwf' roots).2 hn),
      hdead.pin]

theorem counterparts_pruneIsolated : Counterparts ρ (g.Loose roots)
    (g.pruneIsolated roots false).2.order (h.pruneIsolated (roots.map ρ) true).2.order := by
  classical
  rw [order_pruneIsolated hwf, order_pruneIsolated hwf']
  refine hf.order.filter_right (fun m hm _ n _ ↦ hm n) (fun n m hnm hn ↦ ?_)
    fun n m _ hnm hn hm k hk hkm ↦ ?_
  · rw [decide_eq_true_eq] at hn ⊢
    rw [hnm, hf.kept_image hwf']
    exact .inl hn
  · obtain rfl := hf.injective (hkm.trans hnm)
    rw [decide_eq_true_eq, hnm, hf.kept_image hwf'] at hm
    rw [decide_eq_false_iff_not] at hn
    exact hn ((kept_iff_clings roots).2 (.inl (clings_of_isComment roots hk (hm.resolve_left hn))))

/-- Pruning with frames and comments makes a twin of what pruning without them makes. -/
theorem pruneIsolated : Twin ρ (g.Loose roots) (g.Shared roots)
    (g.pruneIsolated roots false).2 (h.pruneIsolated (roots.map ρ) true).2 where
  injective := hf.injective
  wellFormed := wellFormed_pruneIsolated hwf roots false
  wellFormed' := wellFormed_pruneIsolated hwf' (roots.map ρ) true
  tight n hn hloose := by
    classical
    rw [order_pruneIsolated hwf, List.mem_filter, decide_eq_true_eq, kept_iff_clings] at hn
    exact hloose.2 (hn.2.resolve_right fun h ↦ Bool.noConfusion h.1)
  node _ := hf.renumbered_pruneIsolated hwf hwf' roots
  pin _ := hf.pin?_pruneIsolated hwf hwf' roots
  pins n p hp m hm := by
    obtain ⟨hfirst, hn⟩ := ownerOf?_pruneIsolated_false hwf roots
      (((wellFormed_pruneIsolated hwf roots false).mem_pinsOf n p).1 hp)
    obtain rfl := Option.some.inj (hfirst.symm.trans hm)
    exact hn
  links _ _ hpin _ := shared_of_mem_links roots hwf hpin
  owner _ _ hpin hloose := hloose.2 (ownerOf?_pruneIsolated_false hwf roots (ownerOf?_of_pin? hpin)).2
  order := hf.counterparts_pruneIsolated hwf hwf' roots
  extra m x hm hx := by
    rw [node?_pruneIsolated hwf'] at hx
    split at hx
    · by_cases hframe : ∃ n, ρ n = m
      · obtain ⟨n, rfl⟩ := hframe
        have hkind := (not_not.1 fun hnot ↦ hm n hnot rfl : g.Loose roots n).1
        rw [← hf.kindIs_eq, kindIs, kind?, hx] at hkind
        exact hkind
      · exact (hf.frame m x hx fun n hn ↦ hframe ⟨n, hn⟩).1
    · cases hx

end Framed

end Pruned

end Graph

namespace Graph.Twin

variable {ρ : NodeId → NodeId} {loose : NodeId → Prop} {shared : PinId → Prop} {g h : Graph}
  {m n : NodeId} {p q : PinId}

/-! ### What twins have in common -/

section Reading

variable (ht : Twin ρ loose shared g h)
include ht

theorem kind?_eq (hn : ¬loose n) : h.kind? (ρ n) = g.kind? n :=
  map_eq_of_rel (ht.node n hn) fun _ _ hxy ↦ hxy.kind

theorem contains_eq (hn : ¬loose n) : h.contains (ρ n) = g.contains n := by
  have hsome := map_eq_of_rel (f := fun _ ↦ ()) (k := fun _ ↦ ()) (ht.node n hn) fun _ _ _ ↦ rfl
  simpa [contains] using congrArg Option.isSome hsome

theorem isPure_eq (hn : ¬loose n) : h.isPure (ρ n) = g.isPure n := by
  have hnode := ht.node n hn
  rw [isPure, isPure]
  generalize g.node? n = x at hnode
  generalize h.node? (ρ n) = y at hnode
  cases hnode with
  | none => rfl
  | some hxy => rw [Option.any_some, Option.any_some, Node.isPure, Node.isPure, hxy.kind]

theorem pinsOf_eq (hn : ¬loose n) : h.pinsOf (ρ n) = g.pinsOf n := by
  rw [pinsOf, pinsOf, map_eq_of_rel (ht.node n hn) fun _ _ hxy ↦ hxy.pins]

theorem linksOf_eq (hp : shared p) : h.linksOf p = g.linksOf p := by
  rw [linksOf, linksOf, ht.pin p hp, Option.map_map]
  rfl

theorem ownerOf?_eq (hp : shared p) : h.ownerOf? p = (g.ownerOf? p).map ρ := by
  rw [ownerOf?, ownerOf?, ht.pin p hp, Option.map_map, Option.map_map]
  rfl

theorem shared_of_mem_linksOf (hq : q ∈ g.linksOf p) : shared q := by
  obtain ⟨pin, hpin, hq⟩ := mem_linksOf.1 hq
  exact ht.links p pin hpin q hq

theorem linkedNodes_eq (hp : shared p) : h.linkedNodes p = (g.linkedNodes p).map ρ := by
  rw [linkedNodes, linkedNodes, ht.linksOf_eq hp, List.map_filterMap]
  exact List.filterMap_congr fun q hq ↦ ht.ownerOf?_eq (ht.shared_of_mem_linksOf hq)

theorem not_loose_of_mem_linkedNodes (hm : m ∈ g.linkedNodes p) : ¬loose m := by
  obtain ⟨q, -, howner⟩ := mem_linkedNodes.1 hm
  obtain ⟨pin, hpin, rfl⟩ := ownerOf?_eq_some.1 howner
  exact ht.owner q pin hpin

theorem findPin?_eq (hn : ¬loose n) (name : String) (direction : Option Direction) :
    h.findPin? (ρ n) name direction = g.findPin? n name direction := by
  rw [findPin?, findPin?, ht.pinsOf_eq hn]
  refine List.find?_congr fun p hp ↦ ?_
  rw [pinMatches, pinMatches, ht.pin p (ht.pins n p hp), Option.any_map]
  rfl

theorem shared_of_findPin? {name : String} {direction : Option Direction}
    (hp : g.findPin? n name direction = some p) : shared p :=
  ht.pins n p (List.mem_of_find?_eq_some hp)

theorem filteredPins_eq (hn : ¬loose n) (direction : Direction) (exec : Bool) :
    h.filteredPins (ρ n) direction exec = g.filteredPins n direction exec := by
  rw [filteredPins, filteredPins, ht.pinsOf_eq hn]
  refine List.filter_congr fun p hp ↦ ?_
  rw [ht.pin p (ht.pins n p hp), Option.any_map]
  rfl

theorem shared_of_mem_filteredPins {direction : Direction} {exec : Bool}
    (hp : p ∈ g.filteredPins n direction exec) : shared p :=
  ht.pins n p (mem_filteredPins.1 hp).1

theorem flatMap_linkedNodes_eq (hn : ¬loose n) (direction : Direction) (exec : Bool) :
    (h.filteredPins (ρ n) direction exec).flatMap h.linkedNodes =
      ((g.filteredPins n direction exec).flatMap g.linkedNodes).map ρ := by
  rw [ht.filteredPins_eq hn, List.map_flatMap]
  exact List.flatMap_congr fun p hp ↦ ht.linkedNodes_eq (ht.shared_of_mem_filteredPins hp)

theorem execSuccessors_eq (hn : ¬loose n) : h.execSuccessors (ρ n) = (g.execSuccessors n).map ρ :=
  ht.flatMap_linkedNodes_eq hn .output true

theorem dataDependencies_eq (hn : ¬loose n) :
    h.dataDependencies (ρ n) = (g.dataDependencies n).map ρ := by
  rw [dataDependencies, dataDependencies, ht.flatMap_linkedNodes_eq hn, List.filter_map]
  congr 1
  exact List.filter_congr fun m _ ↦ by simp [ht.injective.eq_iff]

end Reading

/-! ### Edits of twins -/

section Editing

variable (ht : Twin ρ loose shared g h)
include ht

theorem modifyPin (p : PinId) {f k : Pin → Pin} (howner : ∀ pin, (f pin).owner = pin.owner)
    (howner' : ∀ pin, (k pin).owner = pin.owner)
    (hlinks : ∀ pin, g.pin? p = some pin → ∀ q ∈ (f pin).links, shared q)
    (hpin : ∀ pin, k (pin.renumber ρ) = (f pin).renumber ρ) :
    Twin ρ loose shared (g.modifyPin p f) (h.modifyPin p k) := by
  have hbooks := SameBooks.modifyPin g p howner
  refine ⟨ht.injective, hbooks.wellFormed ht.wellFormed,
    (SameBooks.modifyPin h p howner').wellFormed ht.wellFormed', ht.tight, ht.node,
    fun q hq ↦ ?_, ht.pins, fun q pin hq ↦ ?_, fun q pin hq ↦ ?_, ht.order, ht.extra⟩
  · rw [pin?_modifyPin, pin?_modifyPin, ht.pin q hq]
    split
    · rw [Option.map_map, Option.map_map]
      exact congrArg (Option.map · _) (funext hpin)
    · rfl
  · rw [pin?_modifyPin] at hq
    split at hq
    · next heq =>
      subst heq
      obtain ⟨pin, hpin, rfl⟩ := Option.map_eq_some_iff.1 hq
      exact hlinks pin hpin
    · exact ht.links q pin hq
  · rw [pin?_modifyPin] at hq
    split at hq
    · obtain ⟨pin, hpin, rfl⟩ := Option.map_eq_some_iff.1 hq
      rw [howner]
      exact ht.owner _ pin hpin
    · exact ht.owner q pin hq

theorem setDefaults (p : PinId) (value : String) (object : Option String) :
    Twin ρ loose shared (g.setDefaults p value object) (h.setDefaults p value object) :=
  ht.modifyPin p (fun _ ↦ rfl) (fun _ ↦ rfl) (fun pin hpin ↦ ht.links p pin hpin) fun _ ↦ rfl

theorem breakLink (p q : PinId) :
    Twin ρ loose shared (g.breakLink p q) (h.breakLink p q) := by
  have hfirst := ht.modifyPin p (f := fun x ↦ { x with links := x.links.filter (· ≠ q) })
    (k := fun x ↦ { x with links := x.links.filter (· ≠ q) }) (fun _ ↦ rfl) (fun _ ↦ rfl)
    (fun pin hpin r hr ↦ ht.links p pin hpin r (List.mem_filter.1 hr).1) fun _ ↦ rfl
  exact hfirst.modifyPin q (fun _ ↦ rfl) (fun _ ↦ rfl)
    (fun pin hpin r hr ↦ hfirst.links q pin hpin r (List.mem_filter.1 hr).1) fun _ ↦ rfl

theorem breakPinLinks (hp : shared p) :
    Twin ρ loose shared (g.breakPinLinks p) (h.breakPinLinks p) := by
  rw [Graph.breakPinLinks, Graph.breakPinLinks, ht.linksOf_eq hp]
  exact List.foldl_rel (r := Twin ρ loose shared) ht fun q _ _ _ ht' ↦
    ht'.breakLink p q

theorem breakNodeLinks (hn : ¬loose n) :
    Twin ρ loose shared (g.breakNodeLinks n) (h.breakNodeLinks (ρ n)) := by
  rw [Graph.breakNodeLinks, Graph.breakNodeLinks, ht.pinsOf_eq hn]
  exact List.foldl_rel (r := Twin ρ loose shared) ht fun p hp _ _ ht' ↦
    ht'.breakPinLinks (ht.pins n p hp)

theorem makeLink (hp : shared p) (hq : shared q) :
    BothEnd (Twin ρ loose shared) (g.makeLink p q) (h.makeLink p q) := by
  have hlinks {r : PinId} (hr : shared r) {links : List PinId} (hold : ∀ s ∈ links, shared s) :
      ∀ s ∈ links ++ [r], shared s :=
    List.forall_mem_append.2 ⟨hold, List.forall_mem_singleton.2 hr⟩
  refine makeLink_both ht.injective (ht.pin p hp) (ht.pin q hq) ht ?_
  have hfirst := ht.modifyPin p (f := fun x ↦ { x with links := x.links ++ [q] })
    (k := fun x ↦ { x with links := x.links ++ [q] }) (fun _ ↦ rfl) (fun _ ↦ rfl)
    (fun pin hpin ↦ hlinks hq (ht.links p pin hpin)) fun _ ↦ rfl
  exact hfirst.modifyPin q (fun _ ↦ rfl) (fun _ ↦ rfl)
    (fun pin hpin ↦ hlinks hp (hfirst.links q pin hpin)) fun _ ↦ rfl

theorem removeNode (hn : ¬loose n) : Twin ρ loose shared (g.removeNode n) (h.removeNode (ρ n)) := by
  cases hcontains : g.contains n with
  | false =>
    rw [removeNode_of_not_contains hcontains,
      removeNode_of_not_contains ((ht.contains_eq hn).trans hcontains)]
    exact ht
  | true =>
    have hcontains' := (ht.contains_eq hn).trans hcontains
    have hbroken := ht.breakNodeLinks hn
    have hbooks := sameBooks_breakNodeLinks g n
    have hleft {q : PinId} {pin : Pin} (hq : (g.removeNode n).pin? q = some pin) :
        (g.breakNodeLinks n).pin? q = some pin := by
      rw [pin?_removeNode hcontains] at hq
      split at hq
      · cases hq
      · exact hq
    refine ⟨ht.injective, ht.wellFormed.removeNode n, ht.wellFormed'.removeNode (ρ n),
      fun m hm ↦ ?_, fun m hm ↦ ?_, fun p hp ↦ ?_, fun m p hp ↦ ?_,
      fun p pin hpin ↦ hbroken.links p pin (hleft hpin),
      fun p pin hpin ↦ hbroken.owner p pin (hleft hpin), ?_, fun m x hm hx ↦ ?_⟩
    · rw [order_removeNode hcontains] at hm
      exact ht.tight m (List.mem_filter.1 hm).1
    · rw [node?_removeNode hcontains, node?_removeNode hcontains']
      by_cases hnm : n = m
      · rw [if_pos hnm, if_pos (congrArg ρ hnm)]
        exact .none
      · rw [if_neg hnm, if_neg (mt (ht.injective ·) hnm)]
        exact hbroken.node m hm
    · rw [pin?_removeNode hcontains, pin?_removeNode hcontains', ht.pinsOf_eq hn]
      split
      · rfl
      · exact hbroken.pin p hp
    · rw [pinsOf, node?_removeNode hcontains] at hp
      split at hp
      · cases hp
      · exact hbroken.pins m p hp
    · rw [order_removeNode hcontains, order_removeNode hcontains']
      refine ht.order.filter fun a b _ hab ↦ ?_
      simp only [hab, ne_eq, ht.injective.eq_iff]
    · rw [node?_removeNode hcontains'] at hx
      split at hx
      · cases hx
      · exact hbroken.extra m x hm hx

theorem removePin (hp : shared p) : Twin ρ loose shared (g.removePin p) (h.removePin p) := by
  have howner := ht.ownerOf?_eq hp
  cases hn : g.ownerOf? p with
  | none =>
    rw [hn] at howner
    unfold Graph.removePin
    rw [hn, howner]
    exact ht
  | some n =>
    rw [hn] at howner
    have hbroken := ht.breakPinLinks hp
    have hloose : ¬loose n := by
      obtain ⟨pin, hpin, rfl⟩ := ownerOf?_eq_some.1 hn
      exact ht.owner p pin hpin
    have hleft {q : PinId} {pin : Pin} (hq : (g.removePin p).pin? q = some pin) :
        (g.breakPinLinks p).pin? q = some pin := by
      rw [pin?_removePin hn] at hq
      split at hq
      · cases hq
      · exact hq
    refine ⟨ht.injective, ht.wellFormed.removePin p, ht.wellFormed'.removePin p,
      fun m hm ↦ ?_, fun m hm ↦ ?_, fun q hq ↦ ?_, fun m q hq ↦ ?_,
      fun q pin hpin ↦ hbroken.links q pin (hleft hpin),
      fun q pin hpin ↦ hbroken.owner q pin (hleft hpin), ?_, fun m x hm hx ↦ ?_⟩
    · rw [order_removePin] at hm
      exact ht.tight m hm
    · rw [node?_removePin hn, node?_removePin howner]
      by_cases hnm : n = m
      · rw [if_pos hnm, if_pos (congrArg ρ hnm)]
        refine rel_map (hbroken.node m hm) fun x y hxy ↦
          ⟨hxy.left, hxy.right, hxy.kind, ?_, hxy.comment⟩
        rw [hxy.pins]
      · rw [if_neg hnm, if_neg (mt (ht.injective ·) hnm)]
        exact hbroken.node m hm
    · rw [pin?_removePin hn, pin?_removePin howner]
      split
      · rfl
      · exact hbroken.pin q hq
    · rw [pinsOf, node?_removePin hn] at hq
      split at hq
      · refine hbroken.pins m q ?_
        rw [pinsOf]
        generalize (g.breakPinLinks p).node? m = x at hq ⊢
        cases x with
        | none => exact hq
        | some x => exact (List.mem_filter.1 hq).1
      · exact hbroken.pins m q hq
    · rw [order_removePin, order_removePin]
      exact ht.order
    · rw [node?_removePin howner, if_neg (hm n hloose)] at hx
      exact hbroken.extra m x hm hx

end Editing

end Graph.Twin

/-! ## Schedules -/

namespace Spread

variable {α β : Type} {R : α → β → Prop} {more : β → Prop} {l : List α} {l' : List β}

/-- What is found first is another member, or the counterpart of what is found first. -/
theorem find?_cases (h : Spread R more l l') {p : α → Bool} {p' : β → Bool}
    (hp : ∀ a ∈ l, ∀ b, R a b → p' b = p a) {b : β} (hb : l'.find? p' = some b) :
    more b ∨ ∃ a, R a b ∧ l.find? p = some a := by
  induction h with
  | nil => cases hb
  | @skip l l' c hc _ ih =>
    rw [List.find?_cons] at hb
    split at hb
    · cases hb
      exact .inl hc
    · exact ih hp hb
  | @cons l l' a c hac _ ih =>
    rw [List.find?_cons, hp a List.mem_cons_self c hac] at hb
    rw [List.find?_cons]
    split at hb
    · next hpa =>
      cases hb
      exact .inr ⟨a, hac, rfl⟩
    · next hpa =>
      refine (ih (fun a ha ↦ hp a (List.mem_cons_of_mem _ ha)) hb).imp_right ?_
      rintro ⟨a', ha', hfind⟩
      exact ⟨a', ha', hfind⟩

theorem find?_eq_none (h : Spread R more l l') {p : α → Bool} {p' : β → Bool}
    (hp : ∀ a ∈ l, ∀ b, R a b → p' b = p a) (hnone : l'.find? p' = none) : l.find? p = none := by
  rw [List.find?_eq_none] at hnone ⊢
  intro a ha
  obtain ⟨b, hb, hab⟩ := h.exists_right ha
  rw [← hp a ha b hab]
  exact hnone b hb

end Spread

namespace Graph

variable {ρ : NodeId → NodeId} {loose : NodeId → Prop} {shared : PinId → Prop} {g h : Graph}
  {n m : NodeId} {before before' : List NodeId}

instance (g : Graph) (before : List NodeId) (n : NodeId) : Decidable (g.Ready before n) :=
  decidable_of_iff (n ∉ before ∧ ∀ m ∈ g.dataDependencies n, m ∈ g.order → m ∈ before) <|
    and_congr_right fun _ ↦ forall_congr' fun _ ↦ and_imp.symm

/-- The first node of the order that could come next. -/
def next? (g : Graph) (before : List NodeId) : Option NodeId :=
  g.order.find? (g.Ready before ·)

theorem next?_of_schedule (hnodup : g.order.Nodup) {rest : List NodeId}
    (h : g.schedule.1 = before ++ n :: rest) : g.next? before = some n := by
  obtain ⟨earlier, later, horder, hready, hfirst⟩ := ready_of_schedule hnodup h
  refine List.find?_eq_some_iff_append.2
    ⟨decide_eq_true hready, earlier, later, horder, fun m hm ↦ ?_⟩
  rw [decide_eq_false (hfirst m hm)]
  rfl

theorem next?_schedule (hnodup : g.order.Nodup) : g.next? g.schedule.1 = none := by
  refine List.find?_eq_none.2 fun n hn hready ↦ ?_
  obtain ⟨hnew, hready⟩ := of_decide_eq_true hready
  obtain ⟨m, -, hwaits, hreads⟩ := waits_of_notMem_schedule hnodup hn hnew
  exact hwaits (hready m hreads)

namespace Twin

variable (ht : Twin ρ loose shared g h)
include ht

theorem mem_order (hn : ¬loose n) : ρ n ∈ h.order ↔ n ∈ g.order :=
  ht.order.mem_iff ht.injective fun hextra ↦ hextra n hn rfl

theorem reads_iff (hn : ¬loose n) : h.Reads (ρ n) m ↔ ∃ k, ρ k = m ∧ ¬loose k ∧ g.Reads n k := by
  unfold Reads
  rw [ht.dataDependencies_eq hn, List.mem_map]
  constructor
  · rintro ⟨⟨k, hk, rfl⟩, horder⟩
    have hloose : ¬loose k := by
      obtain ⟨p, -, hk⟩ := List.mem_flatMap.1 (List.mem_of_mem_filter hk)
      exact ht.not_loose_of_mem_linkedNodes hk
    exact ⟨k, rfl, hloose, hk, (ht.mem_order hloose).1 horder⟩
  · rintro ⟨k, rfl, hloose, hk, horder⟩
    exact ⟨⟨k, hk, rfl⟩, (ht.mem_order hloose).2 horder⟩

theorem ready_iff (hn : ¬loose n)
    (hbefore : Counterparts ρ loose before before') :
    h.Ready before' (ρ n) ↔ g.Ready before n := by
  have hmem {k : NodeId} (hk : ¬loose k) : ρ k ∈ before' ↔ k ∈ before :=
    hbefore.mem_iff ht.injective fun hextra ↦ hextra k hk rfl
  unfold Ready
  rw [hmem hn]
  refine and_congr_right fun _ ↦ ⟨fun hready k hk ↦ ?_, fun hready m hm ↦ ?_⟩
  · have hloose := ht.tight k hk.2
    exact (hmem hloose).1 (hready _ ((ht.reads_iff hn).2 ⟨k, rfl, hloose, hk⟩))
  · obtain ⟨k, rfl, hloose, hk⟩ := (ht.reads_iff hn).1 hm
    exact (hmem hloose).2 (hready k hk)

theorem decide_ready_eq {before before' : List NodeId}
    (hbefore : Counterparts ρ loose before before') :
    ∀ n ∈ g.order, ∀ m, m = ρ n → decide (h.Ready before' m) = decide (g.Ready before n) := by
  rintro n hn _ rfl
  exact decide_eq_decide.2 (ht.ready_iff (ht.tight n hn) hbefore)

/-- What is scheduled up to a point are extra nodes, and the others as they are without them. -/
theorem exists_prefix_schedule {done left : List NodeId} (hsplit : h.schedule.1 = done ++ left) :
    ∃ done' left', g.schedule.1 = done' ++ left' ∧ Counterparts ρ loose done' done := by
  have hnodup := ht.wellFormed.nodup_order
  induction done using List.reverseRecOn generalizing left with
  | nil => exact ⟨[], g.schedule.1, rfl, .nil⟩
  | append_singleton done m ih =>
    rw [List.append_assoc, List.singleton_append] at hsplit
    obtain ⟨done', left', hsplit', hdone⟩ := ih hsplit
    rcases ht.order.find?_cases (ht.decide_ready_eq hdone)
        (next?_of_schedule ht.wellFormed'.nodup_order hsplit) with hextra | ⟨n, rfl, hn⟩
    · exact ⟨done', left', hsplit', by simpa using hdone.append (.skip hextra .nil)⟩
    · cases left' with
      | nil =>
        rw [List.append_nil] at hsplit'
        have hnone := next?_schedule hnodup
        rw [hsplit'] at hnone
        rw [← next?, hnone] at hn
        cases hn
      | cons k left' =>
        have hk := next?_of_schedule hnodup hsplit'
        obtain rfl := Option.some.inj (hk.symm.trans hn)
        exact ⟨done' ++ [k], left', by simpa using hsplit', hdone.append (.cons rfl .nil)⟩

/-- Extra nodes are scheduled wherever there is place, and the others as they are without them. -/
theorem schedule : Counterparts ρ loose g.schedule.1 h.schedule.1 := by
  obtain ⟨done', left', hsplit, hdone⟩ :=
    ht.exists_prefix_schedule (List.append_nil h.schedule.1).symm
  cases left' with
  | nil => rwa [hsplit, List.append_nil]
  | cons k left' =>
    have hk := next?_of_schedule ht.wellFormed.nodup_order hsplit
    have hnone := ht.order.find?_eq_none (ht.decide_ready_eq hdone)
      (next?_schedule ht.wellFormed'.nodup_order)
    rw [← next?, hk] at hnone
    cases hnone

end Twin

end Graph

end VisualScript
