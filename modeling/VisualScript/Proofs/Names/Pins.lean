import VisualScript.Proofs.Code.Emission
import VisualScript.Proofs.Names.Settling
import Mathlib.Data.List.Find

/-!
# Pins of renamed members

A node that gets or sets a member has a pin for it, which follows the member.  That is taken to be
the first of its pins that has the name of the member, be it an exec pin or not.  Links, directions
and types of pins stay, and so do the nodes that come next; but the code of a node goes on at the
pin `then`, which is found by its name.
-/

namespace VisualScript

/-- What is found first is still found when others fall away. -/
theorem find?_of_imp {α : Type} {l : List α} {p q : α → Bool} {a : α} (h : l.find? p = some a)
    (hsub : ∀ x ∈ l, q x = true → p x = true) (hq : q a = true) : l.find? q = some a := by
  obtain ⟨-, before, after, rfl, hbefore⟩ := List.find?_eq_some_iff_append.1 h
  refine List.find?_eq_some_iff_append.2 ⟨hq, before, after, rfl, fun x hx ↦ ?_⟩
  have hnot := hbefore x hx
  cases hqx : q x with
  | false => rfl
  | true =>
    rw [hsub x (List.mem_append_left _ hx) hqx] at hnot
    exact absurd hnot (by decide)

/-- The pin but for its name. -/
def Pin.unnamed (p : Pin) : Pin := { p with name := "" }

namespace Graph

variable {old new : String} {g g' : Graph} {n m : NodeId} {p : PinId}

theorem pinMatches_none {name : String} :
    g.pinMatches name none p = true ↔ ∃ pin, g.pin? p = some pin ∧ pin.name = name := by
  simp [pinMatches, Option.any_eq_true]

/-- The pin that follows a member on a node that gets or sets it. -/
def memberPin? (g : Graph) (name : String) (n : NodeId) : Option PinId :=
  if g.kindIs n (·.refersTo name) then g.findPin? n name none else none

theorem memberPin?_eq_some {name : String} : g.memberPin? name n = some p ↔
    g.kindIs n (·.refersTo name) = true ∧ g.findPin? n name none = some p := by
  unfold memberPin?
  split
  · next h => exact (and_iff_right h).symm
  · next h => exact iff_of_false (fun hsome ↦ by cases hsome) fun hsome ↦ h hsome.1

theorem mem_pinsOf_of_memberPin? {name : String} (h : g.memberPin? name n = some p) :
    p ∈ g.pinsOf n ∧ ∃ pin, g.pin? p = some pin ∧ pin.name = name := by
  have hfind := (memberPin?_eq_some.1 h).2
  exact ⟨List.mem_of_find?_eq_some hfind, pinMatches_none.1 (List.find?_some hfind)⟩

/-! ## One node -/

theorem pin?_renameVariableAt (old new : String) (g : Graph) (m : NodeId) (p : PinId) :
    (renameVariableAt old new g m).pin? p =
      if g.memberPin? old m = some p then (g.pin? p).map fun pin ↦ { pin with name := new }
      else g.pin? p := by
  unfold renameVariableAt memberPin?
  by_cases hrefers : g.kindIs m (·.refersTo old) = true
  · have hnode : SameBooks g (g.modifyNode m fun n ↦ { n with
        kind := n.kind.renameVariable new }) := .modifyNode g m fun _ ↦ ⟨rfl, rfl⟩
    have hfind : (g.modifyNode m fun n ↦ { n with
        kind := n.kind.renameVariable new }).findPin? m old none = g.findPin? m old none := by
      unfold findPin?
      rw [hnode.pinsOf_eq]
      rfl
    rw [if_pos hrefers, if_pos hrefers]
    dsimp only
    rw [hfind]
    cases g.findPin? m old none with
    | none => simp
    | some q => simp
  · rw [if_neg hrefers, if_neg hrefers]
    simp

/-! ## All nodes -/

/-- Nodes took the new name in turn.  A pin is as it was or one of a node that got or set the
member, the one that follows it if pins are listed once; and each that follows it is renamed. -/
structure Relabels (old new : String) (done : List NodeId) (g g' : Graph) : Prop where
  books : SameBooks g g'
  kind (n : NodeId) :
    g'.kind? n = if n ∈ done then (g.kind? n).map (·.redirect old new) else g.kind? n
  pin (p : PinId) : g'.pin? p = g.pin? p ∨ ∃ n ∈ done, g.kindIs n (·.refersTo old) = true ∧
    p ∈ g.pinsOf n ∧ (g.WellFormed → g.memberPin? old n = some p) ∧
    ∃ pin, g.pin? p = some pin ∧ pin.name = old ∧ g'.pin? p = some { pin with name := new }
  follows (n : NodeId) (p : PinId) : n ∈ done → g.memberPin? old n = some p →
    g'.pin? p = (g.pin? p).map fun pin ↦ { pin with name := new }

namespace Relabels

variable {done : List NodeId}

theorem refl (old new : String) (g : Graph) : Relabels old new [] g g :=
  ⟨.refl g, fun _ ↦ rfl, fun _ ↦ .inl rfl, fun _ _ h ↦ absurd h List.not_mem_nil⟩

/-- A node that gets or sets the member by now did so before. -/
theorem kindIs_old (h : Relabels old new done g g')
    (hrefers : g'.kindIs m (·.refersTo old) = true) : g.kindIs m (·.refersTo old) = true := by
  unfold kindIs at hrefers ⊢
  rw [h.kind m] at hrefers
  split at hrefers
  · rw [Option.any_map] at hrefers
    obtain ⟨kind, hkind, hredirect⟩ := (Option.any_eq_true _ _).1 hrefers
    refine (Option.any_eq_true _ _).2 ⟨kind, hkind, ?_⟩
    by_contra hnot
    rw [NodeKind.redirect, if_neg hnot] at hredirect
    exact hnot hredirect
  · exact hrefers

/-- A pin that has another name than the new one by now had it before. -/
theorem pinMatches_of_ne (h : Relabels old new done g g') {name : String}
    {direction : Option Direction} (hne : name ≠ new)
    (hmatch : g'.pinMatches name direction p = true) : g.pinMatches name direction p = true := by
  unfold pinMatches at hmatch ⊢
  rcases h.pin p with hsame | ⟨_, -, -, -, -, pin, -, -, hnew⟩
  · rwa [← hsame]
  · rw [hnew, Option.any_some, Bool.and_eq_true, beq_iff_eq] at hmatch
    exact absurd hmatch.1.symm hne

/-- No pin takes the old name. -/
theorem pinMatches_old (h : Relabels old new done g g')
    (hmatch : g'.pinMatches old none p = true) : g.pinMatches old none p = true := by
  rcases h.pin p with hsame | ⟨_, -, -, -, -, pin, hpin, hname, -⟩
  · rwa [pinMatches, ← hsame]
  · exact pinMatches_none.2 ⟨pin, hpin, hname⟩

/-- The node took the new name, unless it had done so before. -/
theorem kind_step (h : Relabels old new done g g') (n : NodeId) :
    (renameVariableAt old new g' m).kind? n =
      if n ∈ done ++ [m] then (g.kind? n).map (·.redirect old new) else g.kind? n := by
  rw [kind?_renameVariableAt, h.kind n]
  by_cases hm : m = n
  · subst hm
    rw [if_pos rfl, if_pos (List.mem_append_right _ List.mem_cons_self)]
    split
    · rw [Option.map_map]
      exact congrFun (congrArg Option.map (funext (NodeKind.redirect_redirect old new))) _
    · rfl
  · rw [if_neg hm]
    exact if_congr (by simp [Ne.symm hm]) rfl rfl

/-- The pin that is renamed had the old name from the beginning. -/
theorem pin_of_memberPin? (h : Relabels old new done g g')
    (hrenamed : g'.memberPin? old m = some p) :
    p ∈ g.pinsOf m ∧ ∃ pin, g.pin? p = some pin ∧ pin.name = old ∧
      (renameVariableAt old new g' m).pin? p = some { pin with name := new } := by
  obtain ⟨-, hfind⟩ := memberPin?_eq_some.1 hrenamed
  have hmatch : g'.pinMatches old none p = true := List.find?_some hfind
  obtain ⟨pin, hold, hname⟩ := pinMatches_none.1 (h.pinMatches_old hmatch)
  refine ⟨h.books.pinsOf_eq m ▸ List.mem_of_find?_eq_some hfind, pin, hold, hname, ?_⟩
  rw [pin?_renameVariableAt, if_pos hrenamed]
  rcases h.pin p with hsame | ⟨_, -, -, -, -, pin', hold', -, hnew⟩
  · rw [hsame, hold, Option.map_some]
  · cases hold.symm.trans hold'
    rw [hnew, Option.map_some]

/-- No pin of a node is renamed before its turn, if pins are listed once. -/
theorem memberPin?_old (h : Relabels old new done g g') (hwf : g.WellFormed) (hm : m ∉ done)
    (hrenamed : g'.memberPin? old m = some p) : g.memberPin? old m = some p := by
  obtain ⟨hrefers, hfind⟩ := memberPin?_eq_some.1 hrenamed
  refine memberPin?_eq_some.2 ⟨h.kindIs_old hrefers, ?_⟩
  rw [← hfind, findPin?, findPin?, h.books.pinsOf_eq]
  refine List.find?_congr fun q hq ↦ Bool.eq_iff_iff.2 ⟨fun hmatch ↦ ?_, h.pinMatches_old⟩
  rcases h.pin q with hsame | ⟨n, hn, -, hqn, -⟩
  · rwa [pinMatches, hsame]
  · exact absurd (hwf.eq_of_mem_pinsOf hqn hq ▸ hn) hm

/-- A pin that followed the member still does, or was renamed on the way. -/
theorem memberPin?_later (h : Relabels old new done g g') (hm : m ∉ done)
    (hfollows : g.memberPin? old m = some p) (hsame : g'.pin? p = g.pin? p) :
    g'.memberPin? old m = some p := by
  obtain ⟨hrefers, hfind⟩ := memberPin?_eq_some.1 hfollows
  refine memberPin?_eq_some.2 ⟨?_, ?_⟩
  · rwa [kindIs, h.kind m, if_neg hm]
  · have hmatch : g.pinMatches old none p = true := List.find?_some hfind
    rw [findPin?, h.books.pinsOf_eq]
    refine find?_of_imp hfind (fun q _ ↦ h.pinMatches_old) ?_
    rwa [pinMatches, hsame]

/-- A pin has the new name once and for all. -/
theorem renamed_again (h : g'.pin? p = (g.pin? p).map fun pin ↦ { pin with name := new }) :
    (renameVariableAt old new g' m).pin? p =
      (g.pin? p).map fun pin ↦ { pin with name := new } := by
  rw [pin?_renameVariableAt, h]
  split
  · rw [Option.map_map]
    rfl
  · rfl

/-- One more node takes the new name. -/
theorem step (h : Relabels old new done g g') (hnodup : g.WellFormed → m ∉ done) :
    Relabels old new (done ++ [m]) g (renameVariableAt old new g' m) where
  books := h.books.trans (sameBooks_renameVariableAt old new g' m)
  kind := h.kind_step
  pin p := by
    by_cases hrenamed : g'.memberPin? old m = some p
    · obtain ⟨hlisted, pin, hold, hname, hnew⟩ := h.pin_of_memberPin? hrenamed
      exact .inr ⟨m, List.mem_append_right _ List.mem_cons_self,
        h.kindIs_old (memberPin?_eq_some.1 hrenamed).1, hlisted,
        fun hwf ↦ h.memberPin?_old hwf (hnodup hwf) hrenamed, pin, hold, hname, hnew⟩
    · rw [pin?_renameVariableAt, if_neg hrenamed]
      refine (h.pin p).imp_right ?_
      rintro ⟨n, hn, hpin⟩
      exact ⟨n, List.mem_append_left _ hn, hpin⟩
  follows n p hn hfollows := by
    by_cases hdone : n ∈ done
    · exact renamed_again (h.follows n p hdone hfollows)
    · obtain rfl := List.mem_singleton.1 ((List.mem_append.1 hn).resolve_left hdone)
      rcases h.pin p with hsame | ⟨_, -, -, -, -, pin, hold, -, hnew⟩
      · rw [pin?_renameVariableAt, if_pos (h.memberPin?_later hdone hfollows hsame), hsame]
      · exact renamed_again (by rw [hnew, hold, Option.map_some])

theorem run {rest : List NodeId} (h : Relabels old new done g g')
    (hnodup : g.WellFormed → (done ++ rest).Nodup) :
    Relabels old new (done ++ rest) g (rest.foldl (renameVariableAt old new) g') := by
  induction rest generalizing done g' with
  | nil => rwa [List.append_nil]
  | cons m rest ih =>
    rw [List.append_cons] at hnodup ⊢
    refine ih (h.step fun hwf hdone ↦ ?_) hnodup
    have hdisjoint := List.disjoint_of_nodup_append (hnodup hwf).of_append_left
    exact hdisjoint hdone List.mem_cons_self

end Relabels

theorem relabels_renameVariable (g : Graph) (old new : String) :
    Relabels old new g.order g (g.renameVariable old new) :=
  (Relabels.refl old new g).run (·.nodup_order)

/-! ## What is left alone -/

namespace Relabels

variable {done : List NodeId} (h : Relabels old new done g g')
include h

theorem unnamed (p : PinId) : (g'.pin? p).map Pin.unnamed = (g.pin? p).map Pin.unnamed := by
  rcases h.pin p with hsame | ⟨_, -, -, -, -, pin, hpin, -, hnew⟩
  · rw [hsame]
  · rw [hnew, hpin]
    rfl

theorem linksOf_eq (p : PinId) : g'.linksOf p = g.linksOf p := by
  have hlinks (o : Option Pin) : o.map (·.links) = (o.map Pin.unnamed).map (·.links) := by
    cases o <;> rfl
  rw [linksOf, linksOf, hlinks, h.unnamed, ← hlinks]

theorem filteredPins_eq (n : NodeId) (direction : Direction) (exec : Bool) :
    g'.filteredPins n direction exec = g.filteredPins n direction exec := by
  have hface (o : Option Pin) : (o.any fun pin ↦ pin.direction = direction && pin.isExec == exec) =
      (o.map Pin.unnamed).any fun pin ↦ pin.direction = direction && pin.isExec == exec := by
    cases o <;> rfl
  unfold filteredPins
  rw [h.books.pinsOf_eq]
  refine List.filter_congr fun p _ ↦ ?_
  rw [hface, h.unnamed, ← hface]

theorem execSuccessors_eq (n : NodeId) : g'.execSuccessors n = g.execSuccessors n := by
  unfold execSuccessors
  rw [h.filteredPins_eq]
  refine List.flatMap_congr fun p _ ↦ ?_
  rw [linkedNodes, linkedNodes, h.linksOf_eq]
  exact List.filterMap_congr fun q _ ↦ h.books.owners q

/-- A pin is found by other names as before. -/
theorem pinMatches_of_apart {name : String} (hold : old ≠ name) (hnew : new ≠ name)
    (direction : Option Direction) (p : PinId) :
    g'.pinMatches name direction p = g.pinMatches name direction p := by
  unfold pinMatches
  rcases h.pin p with hsame | ⟨_, -, -, -, -, pin, hpin, hname, hpin'⟩
  · rw [hsame]
  · rw [hpin', hpin, Option.any_some, Option.any_some, beq_eq_false_iff_ne.2 hnew, hname,
      beq_eq_false_iff_ne.2 hold]

/-- An output is found as before if an input follows the member on its node. -/
theorem pinMatches_of_input (hwf : g.WellFormed) (hinput : ∀ p pin, g.memberPin? old n = some p →
    g.pin? p = some pin → pin.direction = .input) (name : String) (hp : p ∈ g.pinsOf n) :
    g'.pinMatches name (some .output) p = g.pinMatches name (some .output) p := by
  unfold pinMatches
  rcases h.pin p with hsame | ⟨m, -, -, hm, hfollows, pin, hpin, -, hpin'⟩
  · rw [hsame]
  · have hdirection : pin.direction = .input :=
      hinput p pin (hwf.eq_of_mem_pinsOf hm hp ▸ hfollows hwf) hpin
    rw [hpin', hpin, Option.any_some, Option.any_some, Option.all_some, hdirection]
    simp

/-- A node goes on where it did if its outputs that are named `then` are those that were. -/
theorem thenExit_eq {c : FunctionContext} (hgraph : c.graph = g)
    (hmatch : ∀ p ∈ g.pinsOf n, g'.pinMatches PinName.thenOut (some .output) p =
      g.pinMatches PinName.thenOut (some .output) p) :
    ({ c with graph := g' } : FunctionContext).thenExit n = c.thenExit n := by
  have hfind : g'.findPin? n PinName.thenOut (some .output) =
      c.graph.findPin? n PinName.thenOut (some .output) := by
    rw [hgraph, findPin?, findPin?, h.books.pinsOf_eq]
    exact List.find?_congr hmatch
  have hlinks : (fun p ↦ !(g'.linksOf p).isEmpty) = fun p ↦ !(c.graph.linksOf p).isEmpty := by
    rw [hgraph]
    funext p
    rw [h.linksOf_eq]
  unfold FunctionContext.thenExit
  dsimp only
  rw [hfind, hlinks]
  rfl

/-- A node whose only output named `then` is renamed goes nowhere. -/
theorem thenExit_of_renamed {c : FunctionContext} (hold : old = PinName.thenOut)
    (hne : new ≠ old) (hp : n ∈ done) (hfollows : g.memberPin? old n = some p)
    (honly : ∀ q ∈ g.pinsOf n, g.pinMatches old (some .output) q = true → q = p) :
    ({ c with graph := g' } : FunctionContext).thenExit n =
      if c.isEventGraph then .endOfThread else .gotoReturn := by
  have hnone : g'.findPin? n PinName.thenOut (some .output) = none := by
    rw [← hold, findPin?, h.books.pinsOf_eq, List.find?_eq_none]
    intro q hq hmatch
    obtain rfl := honly q hq (h.pinMatches_of_ne hne.symm hmatch)
    rw [pinMatches, h.follows n q hp hfollows] at hmatch
    obtain ⟨-, pin, hpin, -⟩ := mem_pinsOf_of_memberPin? hfollows
    rw [hpin, Option.map_some, Option.any_some, Bool.and_eq_true, beq_iff_eq] at hmatch
    exact hne hmatch.1
  unfold FunctionContext.thenExit
  dsimp only
  rw [hnone]
  rfl

end Relabels

end Graph

/-! ## All graphs -/

/-- What becomes of exec pins and of the code of nodes where a member gets another name. -/
structure Graph.RenamesMember (old new : String) (g g' : Graph) : Prop where
  order : g'.order = g.order
  pinsOf (n : NodeId) : g'.pinsOf n = g.pinsOf n
  unnamed (p : PinId) : (g'.pin? p).map Pin.unnamed = (g.pin? p).map Pin.unnamed
  execSuccessors (n : NodeId) : g'.execSuccessors n = g.execSuccessors n
  /-- Exec pins stay if none has the name of the member on a node that gets or sets it. -/
  kept : (∀ n ∈ g.order, g.kindIs n (·.refersTo old) = true → ∀ p ∈ g.pinsOf n, ∀ pin,
      g.pin? p = some pin → pin.isExec = true → pin.name ≠ old) →
    ∀ p pin, g.pin? p = some pin → pin.isExec = true → g'.pin? p = some pin
  /-- Where pins are listed once they stay if and only if none follows the member. -/
  kept_iff : g.WellFormed → old ≠ new →
    ((∀ p pin, g.pin? p = some pin → pin.isExec = true → g'.pin? p = some pin) ↔
      ∀ n ∈ g.order, ∀ p pin, g.memberPin? old n = some p → g.pin? p = some pin →
        pin.isExec = false)
  /-- A node goes on where it did if neither name is that of the pin where it goes on, or if it is
  an input that follows the member on the node. -/
  exit (c : FunctionContext) (n : NodeId) : c.graph = g →
    (old ≠ PinName.thenOut ∧ new ≠ PinName.thenOut ∨ g.WellFormed ∧ ∀ p pin,
      g.memberPin? old n = some p → g.pin? p = some pin → pin.direction = .input) →
    ({ c with graph := g' } : FunctionContext).thenExit n = c.thenExit n
  /-- It goes nowhere if the only pin where it could go on follows the member. -/
  lost (c : FunctionContext) (n : NodeId) (p : PinId) : c.graph = g → old = PinName.thenOut →
    new ≠ old → n ∈ g.order → g.memberPin? old n = some p →
    (∀ q ∈ g.pinsOf n, g.pinMatches old (some .output) q = true → q = p) →
    ({ c with graph := g' } : FunctionContext).thenExit n =
      if c.isEventGraph then .endOfThread else .gotoReturn

namespace Blueprint

/-- Renaming the references to a member leaves all of a pin but its name, and so the nodes that
come next.  Exec pins keep their names unless one follows the member, and unless that is the pin
where a node goes on it goes on where it did. -/
theorem renamesMember_renameVariableReferences (b : Blueprint) (old new : String) {j : Nat}
    {g : Graph} (hg : b.allGraphs[j]? = some g) :
    ∃ g', (b.renameVariableReferences old new).allGraphs[j]? = some g' ∧
      g.RenamesMember old new g' := by
  have h := g.relabels_renameVariable old new
  refine ⟨g.renameVariable old new, ?_, ⟨h.books.order, h.books.pinsOf_eq, h.unnamed,
    h.execSuccessors_eq, fun hapart p pin hpin hexec ↦ ?_, fun hwf hne ↦
    ⟨fun hkept n hn p pin hfollows hpin ↦ ?_, fun hdata p pin hpin hexec ↦ ?_⟩,
    fun c n hgraph ↦ ?_, fun c n p _ hold hne hn hfollows honly ↦
      h.thenExit_of_renamed hold hne hn hfollows honly⟩⟩
  · rw [renameVariableReferences, allGraphs_mapGraphs, List.getElem?_map, hg, Option.map_some]
  · rcases h.pin p with hsame | ⟨n, hn, hrefers, hlisted, -, pin', hpin', hname, -⟩
    · rw [hsame, hpin]
    · cases hpin.symm.trans hpin'
      exact absurd hname (hapart n hn hrefers p hlisted pin hpin hexec)
  · rw [Bool.eq_false_iff]
    intro hexec
    have hnew := h.follows n p hn hfollows
    obtain ⟨-, pin', hpin', hname⟩ := Graph.mem_pinsOf_of_memberPin? hfollows
    cases hpin.symm.trans hpin'
    rw [hkept p pin hpin hexec, hpin, Option.map_some, Option.some.injEq] at hnew
    exact hne (hname.symm.trans (congrArg Pin.name hnew))
  · rcases h.pin p with hsame | ⟨n, hn, -, -, hfollows, -⟩
    · rw [hsame, hpin]
    · rw [hdata n hn p pin (hfollows hwf) hpin] at hexec
      cases hexec
  · rintro (⟨hold, hnew⟩ | ⟨hwf, hinput⟩)
    · exact h.thenExit_eq hgraph fun p _ ↦ h.pinMatches_of_apart hold hnew _ p
    · exact h.thenExit_eq hgraph fun p hp ↦ h.pinMatches_of_input hwf hinput _ hp

/-- A function that sets a variable and then calls another function. -/
def setting (name : String) : Blueprint :=
  let set := ((Graph.empty "F").spawn (.functionEntry {})).2.spawn
    (.variableSet (some (.selfMember name .int)))
  let call := set.2.spawn (.callFunction (.selfCall "G"))
  { Blueprint.new "Setter" (Class.new "Actor" none) with
    newVariables := [.new name .int]
    functionGraphs := [(call.2.makeLink ⟨2⟩ ⟨4⟩).toOption.getD call.2] }

theorem renamesMember_renameVariableReferences_setting :
    let b := setting "A"
    let b' := b.renameVariableReferences "A" "B"
    ∃ g g', b.allGraphs[0]? = some g ∧ b'.allGraphs[0]? = some g' ∧
      (g.findPin? ⟨1⟩ PinName.thenOut (some .output)).isSome = true ∧
      g.execSuccessors ⟨1⟩ = [⟨2⟩] ∧ g'.execSuccessors ⟨1⟩ = [⟨2⟩] ∧
      ∀ c : FunctionContext, c.graph = g →
        ({ c with graph := g' } : FunctionContext).thenExit ⟨1⟩ = c.thenExit ⟨1⟩ := by
  intro b b'
  obtain ⟨g, hg⟩ : ∃ g, b.allGraphs[0]? = some g := ⟨_, rfl⟩
  obtain ⟨g', hg', h⟩ := renamesMember_renameVariableReferences b "A" "B" hg
  have hnext : g.execSuccessors ⟨1⟩ = [⟨2⟩] := by
    cases hg
    decide +kernel
  have hthen : (g.findPin? ⟨1⟩ PinName.thenOut (some .output)).isSome = true := by
    cases hg
    decide +kernel
  exact ⟨g, g', hg, hg', hthen, hnext, (h.execSuccessors ⟨1⟩).trans hnext,
    fun c hc ↦ h.exit c ⟨1⟩ hc (.inl (by decide))⟩

/-- A node that sets a variable with the name `then` goes nowhere once that is renamed. -/
theorem not_thenExit_renameVariableReferences :
    let b := setting "then"
    let b' := b.renameVariableReferences "then" "B"
    ∃ g g' p pin, b.allGraphs[0]? = some g ∧ b'.allGraphs[0]? = some g' ∧
      g.pin? p = some pin ∧ pin.isExec = true ∧ g'.pin? p ≠ some pin ∧
      g.execSuccessors ⟨1⟩ = [⟨2⟩] ∧
      (FunctionContext.new "F" g).thenExit ⟨1⟩ = .unconditionalGoto (.pin p) ∧
      (FunctionContext.new "F" g').thenExit ⟨1⟩ = .gotoReturn := by
  refine ⟨_, _, ⟨2⟩, _, rfl, rfl, rfl, ?_⟩
  decide +kernel

end Blueprint

end VisualScript
