import VisualScript.Compile.Names
import VisualScript.Proofs.Graph.Books
import Mathlib.Data.List.Basic

/-!
# References to members

A node that gets or sets a member names it.  Renaming the references to a member
changes the name on every node that has it and nothing else that references depend
on: not the nodes of a graph, and not the local variables of a function.
-/

namespace VisualScript

/-! ## Names on nodes -/

namespace NodeKind

/-- The member of the class being compiled that a node gets or sets. -/
def member? : NodeKind → Option String
  | variableGet ⟨name, none, _⟩ | variableSet (some ⟨name, none, _⟩) => some name
  | _ => none

/-- The local variables that an entry declares. -/
def localNames : NodeKind → List String
  | functionEntry ⟨_, _, locals, _⟩ => locals.map (·.name)
  | _ => []

theorem refersTo_iff {name : String} {kind : NodeKind} :
    kind.refersTo name = true ↔ kind.member? = some name := by
  cases kind with
  | variableGet var =>
    obtain ⟨name', owner, ty⟩ := var
    cases owner <;> simp [refersTo, member?]
  | variableSet var =>
    cases var with
    | none => simp [refersTo, member?]
    | some var =>
      obtain ⟨name', owner, ty⟩ := var
      cases owner <;> simp [refersTo, member?]
  | _ => simp [refersTo, member?]

/-- Renames the member that a node gets or sets, if it is that one. -/
def redirect (old new : String) (kind : NodeKind) : NodeKind :=
  if kind.refersTo old then kind.renameVariable new else kind

/-- The name that a reference has after one member was renamed. -/
def follow (old new name : String) : String := if name = old then new else name

theorem member?_redirect (old new : String) (kind : NodeKind) :
    (kind.redirect old new).member? = kind.member?.map (follow old new) := by
  unfold redirect
  by_cases h : kind.refersTo old = true
  · rw [if_pos h]
    rw [refersTo_iff] at h
    rw [h, Option.map_some, follow, if_pos rfl]
    cases kind with
    | variableGet var =>
      obtain ⟨name, owner, ty⟩ := var
      cases owner with
      | none => rfl
      | some owner => cases h
    | variableSet var =>
      cases var with
      | none => cases h
      | some var =>
        obtain ⟨name, owner, ty⟩ := var
        cases owner with
        | none => rfl
        | some owner => cases h
    | _ => cases h
  · rw [if_neg h]
    rw [refersTo_iff] at h
    cases hmember : kind.member? with
    | none => rfl
    | some name =>
      rw [Option.map_some, follow, if_neg]
      rintro rfl
      exact h hmember

theorem localNames_redirect (old new : String) (kind : NodeKind) :
    (kind.redirect old new).localNames = kind.localNames := by
  unfold redirect
  split
  · cases kind with
    | variableSet var => cases var <;> rfl
    | _ => rfl
  · rfl

/-- Renaming once more finds nothing to rename. -/
theorem redirect_redirect (old new : String) (kind : NodeKind) :
    (kind.redirect old new).redirect old new = kind.redirect old new := by
  by_cases h : (kind.redirect old new).refersTo old = true
  · have hmember := refersTo_iff.1 h
    rw [member?_redirect, Option.map_eq_some_iff] at hmember
    obtain ⟨name, hname, hfollow⟩ := hmember
    -- only a member that keeps its name is found again
    have hsame : new = old := by
      unfold follow at hfollow
      split at hfollow
      · exact hfollow
      · next hne => exact absurd hfollow hne
    subst hsame
    have hkeep (kind : NodeKind) : kind.redirect new new = kind := by
      unfold redirect
      split
      · next hrefers =>
        rw [refersTo_iff] at hrefers
        cases kind with
        | variableGet var =>
          obtain ⟨name, owner, ty⟩ := var
          cases owner <;> cases hrefers
          rfl
        | variableSet var =>
          cases var with
          | none => cases hrefers
          | some var =>
            obtain ⟨name, owner, ty⟩ := var
            cases owner <;> cases hrefers
            rfl
        | _ => cases hrefers
      · rfl
    rw [hkeep, hkeep]
  · rw [redirect, if_neg h]

theorem member?_renameTimeline (old new : String) (kind : NodeKind) :
    (kind.renameTimeline old new).member? = kind.member? := by
  cases kind <;> rfl

theorem localNames_renameTimeline (old new : String) (kind : NodeKind) :
    (kind.renameTimeline old new).localNames = kind.localNames := by
  cases kind <;> rfl

theorem renameTimeline_renameTimeline (old new : String) (kind : NodeKind) :
    (kind.renameTimeline old new).renameTimeline old new = kind.renameTimeline old new := by
  cases kind with
  | timeline name =>
    simp only [renameTimeline, timeline.injEq]
    split <;> simp_all
  | _ => rfl

theorem renameCall_renameCall (old new : String) (kind : NodeKind) :
    (kind.renameCall old new).renameCall old new = kind.renameCall old new := by
  cases kind with
  | callFunction call =>
    by_cases h : call.owner.isNone ∧ call.function = old
    · have hcall : (callFunction call).renameCall old new =
          callFunction { call with function := new } := if_pos h
      rw [hcall]
      unfold renameCall
      dsimp only
      split <;> rfl
    · have hcall : (callFunction call).renameCall old new = callFunction call := if_neg h
      rw [hcall, hcall]
  | _ => rfl

theorem member?_renameCall (old new : String) (kind : NodeKind) :
    (kind.renameCall old new).member? = kind.member? := by
  cases kind with
  | callFunction call =>
    unfold renameCall
    dsimp only
    split <;> rfl
  | _ => rfl

theorem localNames_renameCall (old new : String) (kind : NodeKind) :
    (kind.renameCall old new).localNames = kind.localNames := by
  cases kind with
  | callFunction call =>
    unfold renameCall
    dsimp only
    split <;> rfl
  | _ => rfl

end NodeKind

/-! ## Names on graphs -/

namespace Graph

/-- The member of the class being compiled that a node of the graph gets or sets. -/
def member? (g : Graph) (n : NodeId) : Option String := (g.kind? n).bind (·.member?)

/-- The local variables of the function of the graph. -/
def localNames (g : Graph) : List String := g.liveNodes.flatMap (·.kind.localNames)

theorem localNames_eq (g : Graph) :
    g.localNames = g.order.flatMap fun n ↦ ((g.kind? n).map (·.localNames)).getD [] := by
  unfold localNames liveNodes
  induction g.order with
  | nil => rfl
  | cons n order ih =>
    rw [List.filterMap_cons, List.flatMap_cons, kind?]
    cases g.node? n with
    | none => exact ih
    | some node => rw [List.flatMap_cons, ih]; rfl

theorem kind?_modifyNode (g : Graph) (m n : NodeId) (f : NodeKind → NodeKind) :
    (g.modifyNode m fun node ↦ { node with kind := f node.kind }).kind? n =
      if m = n then (g.kind? n).map f else g.kind? n := by
  rw [kind?, node?_modifyNode]
  split
  · rw [Option.map_map, kind?, Option.map_map]
    rfl
  · rfl

theorem kind?_renameVariableAt (old new : String) (g : Graph) (m n : NodeId) :
    (renameVariableAt old new g m).kind? n =
      if m = n then (g.kind? n).map (·.redirect old new) else g.kind? n := by
  unfold renameVariableAt
  split
  · next hrefers =>
    have hnode := kind?_modifyNode g m n (·.renameVariable new)
    -- the pin that is renamed with the node is not seen
    suffices hkind : (g.modifyNode m fun node ↦ { node with
        kind := node.kind.renameVariable new }).kind? n =
          if m = n then (g.kind? n).map (·.redirect old new) else g.kind? n by
      dsimp only
      split <;> exact hkind
    rw [hnode]
    split
    · next heq =>
      subst heq
      unfold kindIs at hrefers
      cases hkind : g.kind? m with
      | none => rfl
      | some kind =>
        rw [hkind, Option.any_some] at hrefers
        rw [Option.map_some, Option.map_some, NodeKind.redirect, if_pos hrefers]
    · rfl
  · next hrefers =>
    split
    · next heq =>
      subst heq
      unfold kindIs at hrefers
      cases hkind : g.kind? m with
      | none => rfl
      | some kind =>
        rw [hkind, Option.any_some] at hrefers
        rw [Option.map_some, NodeKind.redirect, if_neg hrefers]
    · rfl

/-- Changing the nodes of a list one by one changes the kinds of just these nodes. -/
theorem kind?_foldl {step : Graph → NodeId → Graph} {f : NodeKind → NodeKind}
    (hstep : ∀ g m n, (step g m).kind? n = if m = n then (g.kind? n).map f else g.kind? n)
    (hagain : ∀ kind, f (f kind) = f kind) (l : List NodeId) (g : Graph) (n : NodeId) :
    (l.foldl step g).kind? n = if n ∈ l then (g.kind? n).map f else g.kind? n := by
  induction l generalizing g with
  | nil => rfl
  | cons m l ih =>
    rw [List.foldl_cons, ih, hstep]
    by_cases hm : m = n
    · subst hm
      rw [if_pos rfl, if_pos List.mem_cons_self]
      split
      · rw [Option.map_map]
        exact congrFun (congrArg Option.map (funext hagain)) _
      · rfl
    · rw [if_neg hm]
      simp only [List.mem_cons, Ne.symm hm, false_or]

end Graph

/-! ## Redirected graphs -/

namespace Graph

/-- The nodes of the graph are the same, and the names of members on them say what `f` makes of
those before. -/
structure Redirects (f : String → String) (g g' : Graph) : Prop where
  order : g'.order = g.order
  member (n : NodeId) : n ∈ g.order → g'.member? n = (g.member? n).map f
  locals : g'.localNames = g.localNames

namespace Redirects

theorem refl (g : Graph) : Redirects id g g :=
  ⟨rfl, fun _ _ ↦ (congrFun Option.map_id _).symm, rfl⟩

theorem trans {f f' : String → String} {g g' g'' : Graph} (h : Redirects f g g')
    (h' : Redirects f' g' g'') : Redirects (f' ∘ f) g g'' := by
  refine ⟨h'.order.trans h.order, fun n hn ↦ ?_, h'.locals.trans h.locals⟩
  rw [h'.member n (h.order ▸ hn), h.member n hn, Option.map_map]

/-- Kinds that are changed one by one redirect what the change redirects. -/
theorem of_kinds {f : String → String} {κ : NodeKind → NodeKind} {g g' : Graph}
    (horder : g'.order = g.order) (hkinds : ∀ n ∈ g.order, g'.kind? n = (g.kind? n).map κ)
    (hmember : ∀ kind, (κ kind).member? = kind.member?.map f)
    (hlocals : ∀ kind, (κ kind).localNames = kind.localNames) : Redirects f g g' := by
  refine ⟨horder, fun n hn ↦ ?_, ?_⟩
  · unfold Graph.member?
    rw [hkinds n hn]
    cases g.kind? n with
    | none => rfl
    | some kind => exact hmember kind
  · rw [localNames_eq, localNames_eq, horder]
    refine List.flatMap_congr fun n hn ↦ ?_
    rw [hkinds n hn]
    cases g.kind? n with
    | none => rfl
    | some kind => exact hlocals kind

end Redirects

theorem sameBooks_mapKinds (g : Graph) (f : NodeKind → NodeKind) : SameBooks g (g.mapKinds f) :=
  .foldl (fun g n ↦ .modifyNode g n fun _ ↦ by exact ⟨rfl, rfl⟩) _ g

theorem sameBooks_renameVariableAt (old new : String) (g : Graph) (n : NodeId) :
    SameBooks g (renameVariableAt old new g n) := by
  unfold renameVariableAt
  split
  · refine .trans (.modifyNode g n (f := fun x ↦ { x with kind := x.kind.renameVariable new }) ?_) ?_
    · exact fun _ ↦ ⟨rfl, rfl⟩
    · dsimp only
      split
      · exact .modifyPin _ _ fun _ ↦ rfl
      · exact .refl _
  · exact .refl g

theorem sameBooks_renameVariable (g : Graph) (old new : String) :
    SameBooks g (g.renameVariable old new) :=
  .foldl (sameBooks_renameVariableAt old new) _ g

theorem order_renameVariable (g : Graph) (old new : String) :
    (g.renameVariable old new).order = g.order :=
  (g.sameBooks_renameVariable old new).order

theorem kind?_renameVariable (g : Graph) (old new : String) {n : NodeId} (hn : n ∈ g.order) :
    (g.renameVariable old new).kind? n = (g.kind? n).map (·.redirect old new) := by
  rw [renameVariable, kind?_foldl (kind?_renameVariableAt old new)
    (NodeKind.redirect_redirect old new), if_pos hn]

theorem redirects_renameVariable (g : Graph) (old new : String) :
    Redirects (NodeKind.follow old new) g (g.renameVariable old new) :=
  .of_kinds (g.order_renameVariable old new) (fun _ hn ↦ g.kind?_renameVariable old new hn)
    (NodeKind.member?_redirect old new) (NodeKind.localNames_redirect old new)

theorem order_mapKinds (g : Graph) (f : NodeKind → NodeKind) : (g.mapKinds f).order = g.order :=
  (g.sameBooks_mapKinds f).order

/-- Changing kinds that are not changed when they are changed again. -/
theorem kind?_mapKinds (g : Graph) {f : NodeKind → NodeKind} (hagain : ∀ kind, f (f kind) = f kind)
    {n : NodeId} (hn : n ∈ g.order) : (g.mapKinds f).kind? n = (g.kind? n).map f := by
  rw [mapKinds, kind?_foldl (fun g m n ↦ g.kind?_modifyNode m n f) hagain, if_pos hn]

end Graph

end VisualScript
