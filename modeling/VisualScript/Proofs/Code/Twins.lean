import Mathlib.Data.List.TakeWhile
import VisualScript.Proofs.Code.Inlining
import VisualScript.Proofs.Compile.Handling
import VisualScript.Proofs.Jumps.Comments
import VisualScript.Proofs.Reach

/-!
# The code of twins

The nodes of twins that have counterparts get the same code, and the other nodes get marks only.
These are pure, so that they leave the execution lists when pure nodes are inlined.  What is left is
put in order alike, and its jumps go to the same indices.
-/

namespace VisualScript

namespace Spread

variable {α β : Type} [DecidableEq α] [DecidableEq β] {more : β → Prop} {l : List α} {l' : List β}
  {f : α → β}

/-- Members stand in the same order with other members in between. -/
theorem idxOf_le_iff (hf : Function.Injective f) (h : Spread (fun a b ↦ b = f a) more l l')
    {a b : α} (ha : ¬more (f a)) (hb : ¬more (f b)) :
    l'.idxOf (f a) ≤ l'.idxOf (f b) ↔ l.idxOf a ≤ l.idxOf b := by
  induction h with
  | nil => simp
  | @skip l l' c hc _ ih =>
    have hne {x : α} (hx : ¬more (f x)) : c ≠ f x := fun heq ↦ hx (heq ▸ hc)
    rw [List.idxOf_cons_ne _ (hne ha), List.idxOf_cons_ne _ (hne hb), Nat.succ_le_succ_iff, ih]
  | @cons l l' c d hcd _ ih =>
    subst hcd
    by_cases hac : c = a
    · subst hac
      simp
    · by_cases hbc : c = b
      · subst hbc
        simp [List.idxOf_cons_ne _ hac, List.idxOf_cons_ne _ (mt (hf ·) hac)]
      · rw [List.idxOf_cons_ne _ (mt (hf ·) hac), List.idxOf_cons_ne _ (mt (hf ·) hbc),
          List.idxOf_cons_ne _ hac, List.idxOf_cons_ne _ hbc, Nat.succ_le_succ_iff, ih,
          Nat.succ_le_succ_iff]

end Spread

/-! ## Emitting -/

namespace FunctionState

variable {ρ : NodeId → NodeId} {loose : NodeId → Prop} {shared : PinId → Prop}
  {s t : FunctionState} {n m : NodeId}

namespace Twin

variable (h : Twin ρ loose shared s t)
include h

theorem commentOf_eq (hn : ¬loose n) : commentOf t.graph (ρ n) = commentOf s.graph n := by
  have hnode := h.graph.node n hn
  unfold commentOf
  generalize s.graph.node? n = x at hnode ⊢
  generalize t.graph.node? (ρ n) = y at hnode ⊢
  cases hnode with
  | none => rfl
  | some hxy =>
    dsimp only
    rw [hxy.comment, Node.title, Node.title, hxy.kind]

theorem markNode (env : CompileEnv) (hn : ¬loose n) {kind : NodeKind}
    (hkind : s.graph.kind? n = some kind) :
    Twin ρ loose shared (s.markNode env n kind) (t.markNode env (ρ n) kind) := by
  unfold FunctionState.markNode
  rw [h.ctx.isEventGraph]
  split
  · exact h
  · next hentry =>
    have hfixed : ρ n = n := h.ctx.fixed n kind hkind (by simpa using hentry)
    have hcomment : Twin ρ loose shared
        (if env.options.emitNodeComments then s.append n (.comment (commentOf s.graph n)) else s)
        (if env.options.emitNodeComments then t.append (ρ n) (.comment (commentOf t.graph (ρ n)))
          else t) := by
      split
      · rw [h.commentOf_eq hn]
        exact h.append hn fun p hp ↦ by cases hp
      · exact h
    dsimp only
    generalize (if env.options.emitNodeComments then _ else s) = s' at hcomment ⊢
    generalize (if env.options.emitNodeComments then _ else t) = t' at hcomment ⊢
    rw [hcomment.ctx.flags]
    split
    · have hmarked := hcomment.append hn (u := .debugSite n) fun p hp ↦ by cases hp
      rw [hfixed] at hmarked ⊢
      exact hmarked
    · exact hcomment

/-- An extra node has nothing but marks. -/
theorem markExtra (env : CompileEnv) (hm : ∀ n, ¬loose n → ρ n ≠ m) (kind : NodeKind) :
    Twin ρ loose shared s (t.markNode env m kind) := by
  unfold FunctionState.markNode
  split
  · exact h
  · have hcomment : Twin ρ loose shared s (if env.options.emitNodeComments then
        t.append m (.comment (commentOf t.graph m)) else t) := by
      split
      · exact ⟨h.ctx.mark hm rfl, h.cls, h.names⟩
      · exact h
    dsimp only
    generalize (if env.options.emitNodeComments then _ else t) = t' at hcomment ⊢
    split
    · exact ⟨hcomment.ctx.mark hm rfl, hcomment.cls, hcomment.names⟩
    · exact hcomment

theorem emitNodes {env : CompileEnv} (henv : env.HandlesAll) {l l' : List NodeId}
    (hl : Graph.Counterparts ρ loose l l')
    (htight : ∀ n ∈ l, ¬loose n) :
    Twin ρ loose shared (emitNodes env l s) (emitNodes env l' t) := by
  induction hl generalizing s t with
  | nil => exact h
  | @skip l l' m hm _ ih =>
    rw [FunctionState.emitNodes.eq_def env (m :: l')]
    dsimp only
    split
    · exact ih h htight
    · next kind hkind =>
      obtain ⟨x, hx, rfl⟩ := Option.map_eq_some_iff.1 hkind
      obtain ⟨text, htext⟩ := NodeKind.exists_of_isComment (h.graph.extra m x hm hx)
      have hhandled : env.handles x.kind = true := by
        rw [henv, htext]
        rfl
      have hidle (u : FunctionState) : x.kind.compile u m = u := by
        rw [htext]
        rfl
      rw [if_pos hhandled, hidle]
      exact ih (h.markExtra env hm x.kind) htight
  | @cons l l' n m hnm _ ih =>
    subst hnm
    obtain ⟨hn, htight⟩ := List.forall_mem_cons.1 htight
    rw [FunctionState.emitNodes, FunctionState.emitNodes, h.graph.kind?_eq hn]
    split
    · exact ih h htight
    · next kind hkind =>
      split
      · exact ih (NodeKind.twin_compile (h.markNode env hn hkind) kind hn) htight
      · exact (h.error _ _ _ _).fail

end Twin

end FunctionState

/-! ## Inlining -/

namespace Inline

variable {ρ : NodeId → NodeId} {loose : NodeId → Prop} {shared : PinId → Prop}
  {schedule schedule' : List NodeId} {n m : NodeId}

theorem placeIn_eq_idxOf (hnodup : schedule.Nodup) (n : NodeId) :
    placeIn schedule n = schedule.idxOf n := by
  by_cases hn : n ∈ schedule
  · exact placeIn_eq hnodup (List.getElem?_idxOf hn)
  · have hnone : (schedule.zipIdx.filter fun e ↦ e.1 = n) = [] := by
      refine List.filter_eq_nil_iff.2 fun e he heq ↦ hn ?_
      rw [← of_decide_eq_true heq]
      exact List.mem_of_getElem? (List.mem_zipIdx_iff_getElem?.1 he)
    rw [placeIn, hnone, List.idxOf_eq_length hn]
    rfl

/-- The nodes without a counterpart apart, both schedules put the nodes in the same order. -/
def SameOrder (ρ : NodeId → NodeId) (loose : NodeId → Prop) (schedule schedule' : List NodeId) :
    Prop :=
  ∀ m n, ¬loose m → ¬loose n →
    (placeIn schedule' (ρ m) ≤ placeIn schedule' (ρ n) ↔ placeIn schedule m ≤ placeIn schedule n)

theorem insertInOrder_map (hinj : Function.Injective ρ)
    (hplaces : SameOrder ρ loose schedule schedule') (hn : ¬loose n) {list : List NodeId}
    (hlist : ∀ m ∈ list, ¬loose m) :
    insertInOrder schedule' (ρ n) (list.map ρ) = (insertInOrder schedule n list).map ρ := by
  unfold insertInOrder
  by_cases hmem : n ∈ list
  · rw [if_pos hmem, if_pos (List.mem_map_of_mem hmem)]
  · rw [if_neg hmem, if_neg (mt (List.mem_map_of_injective hinj).1 hmem)]
    have hbefore : ∀ m ∈ list, decide (placeIn schedule' (ρ m) ≤ placeIn schedule' (ρ n)) =
        decide (placeIn schedule m ≤ placeIn schedule n) := fun m hm ↦
      decide_eq_decide.2 (hplaces m n (hlist m hm) hn)
    dsimp only
    rw [List.map_append, List.map_cons]
    clear hmem
    induction list with
    | nil => rfl
    | cons m list ih =>
      obtain ⟨hm, hbefore⟩ := List.forall_mem_cons.1 hbefore
      have ih := ih (fun k hk ↦ hlist k (List.mem_cons_of_mem _ hk)) hbefore
      rw [List.map_cons, List.takeWhile_cons, List.dropWhile_cons, List.takeWhile_cons,
        List.dropWhile_cons, hm]
      split
      · rw [List.cons_append, ih]
        rfl
      · rfl

theorem insertAll_map (hinj : Function.Injective ρ) (hplaces : SameOrder ρ loose schedule schedule')
    {ps list : List NodeId} (hps : ∀ p ∈ ps, ¬loose p) (hlist : ∀ m ∈ list, ¬loose m) :
    insertAll schedule' (ps.map ρ) (list.map ρ) = (insertAll schedule ps list).map ρ := by
  induction ps generalizing list with
  | nil => rfl
  | cons p ps ih =>
    obtain ⟨hp, hps⟩ := List.forall_mem_cons.1 hps
    have hinserted := insertInOrder_map hinj hplaces hp hlist
    rw [insertAll, List.map_cons, List.foldl_cons, hinserted]
    refine ih hps fun m hm ↦ ?_
    rcases mem_insertInOrder.1 hm with rfl | hm
    · exact hp
    · exact hlist m hm

/-- Two tables of what nodes need.  Extra nodes need nothing and are not needed. -/
structure SameNeeds (ρ : NodeId → NodeId) (loose : NodeId → Prop)
    (table table' : List (NodeId × List NodeId)) : Prop where
  lookup : ∀ n, ¬loose n → table'.lookup (ρ n) = (table.lookup n).map (List.map ρ)
  tight : ∀ n, ∀ p ∈ (table.lookup n).getD [], ¬loose p
  idle : ∀ m, (∀ n, ¬loose n → ρ n ≠ m) → table'.lookup m = none

theorem SameNeeds.getD_eq {table table' : List (NodeId × List NodeId)}
    (h : SameNeeds ρ loose table table') (hn : ¬loose n) :
    (table'.lookup (ρ n)).getD [] = ((table.lookup n).getD []).map ρ := by
  rw [h.lookup n hn]
  cases table.lookup n <;> rfl

theorem SameNeeds.update {table table' : List (NodeId × List NodeId)}
    (h : SameNeeds ρ loose table table') (hinj : Function.Injective ρ)
    (hplaces : SameOrder ρ loose schedule schedule') {ps : List NodeId} (hps : ∀ p ∈ ps, ¬loose p)
    (hn : ¬loose n) : SameNeeds ρ loose (Assoc.update n [] (insertAll schedule ps) table)
      (Assoc.update (ρ n) [] (insertAll schedule' (ps.map ρ)) table') := by
  refine ⟨fun m hm ↦ ?_, fun m p hp ↦ ?_, fun m hm ↦ ?_⟩
  · simp only [Assoc.lookup_update, hinj.eq_iff, h.getD_eq hn,
      insertAll_map hinj hplaces hps (h.tight n)]
    split
    · rfl
    · exact h.lookup m hm
  · rw [Assoc.lookup_update] at hp
    split at hp
    · rcases mem_insertAll.1 hp with hp | hp
      · exact hps p hp
      · exact h.tight n p hp
    · exact h.tight m p hp
  · rw [Assoc.lookup_update, if_neg (hm n hn).symm]
    exact h.idle m hm

/-- Two walks along the execution lists of twins. -/
structure State.Twin (ρ : NodeId → NodeId) (loose : NodeId → Prop) (shared : PinId → Prop)
    (s t : State) : Prop where
  ctx : FunctionContext.Twin ρ loose shared s.ctx t.ctx
  needed : SameNeeds ρ loose s.needed t.needed
  kept : t.kept = s.kept.map ρ
  kept_tight : ∀ n ∈ s.kept, ¬loose n

namespace State.Twin

variable {s t : State} (h : Twin ρ loose shared s t)
include h

theorem finish (hn : ¬loose n) :
    Twin ρ loose shared (Inline.finish s n) (Inline.finish t (ρ n)) := by
  refine ⟨?_, h.needed, ?_, List.forall_mem_append.2
    ⟨h.kept_tight, List.forall_mem_singleton.2 hn⟩⟩
  · change FunctionContext.Twin ρ loose shared
      ((s.needs n).reverse.foldl (fun c p ↦ c.prependStatements n p) s.ctx)
      ((t.needs (ρ n)).reverse.foldl (fun c p ↦ c.prependStatements (ρ n) p) t.ctx)
    rw [State.needs, State.needs, h.needed.getD_eq hn, ← List.map_reverse, List.foldl_map]
    exact List.foldl_rel (r := FunctionContext.Twin ρ loose shared) h.ctx fun p hp c d hc ↦
      hc.prependStatements hn (h.needed.tight n p (List.mem_reverse.1 hp))
  · change t.kept ++ [ρ n] = (s.kept ++ [n]).map ρ
    rw [h.kept, List.map_append]
    rfl

theorem propagate (hplaces : SameOrder ρ loose schedule schedule') (hn : ¬loose n) :
    Twin ρ loose shared (Inline.propagate schedule s n) (Inline.propagate schedule' t (ρ n)) := by
  have hcode : t.ctx.generatedCode (ρ n) = s.ctx.generatedCode n := by
    rw [FunctionContext.generatedCode, h.ctx.statementsOf_eq hn, FunctionContext.generatedCode]
  have hknown : (t.needed.lookup (ρ n)).isSome = (s.needed.lookup n).isSome := by
    rw [h.needed.lookup n hn, Option.isSome_map]
  unfold Inline.propagate
  dsimp only
  rw [hknown, hcode]
  split
  · refine ⟨h.ctx, ?_, h.kept, h.kept_tight⟩
    have hps : ∀ p ∈ n :: (s.needed.lookup n).getD [], ¬loose p :=
      List.forall_mem_cons.2 ⟨hn, h.needed.tight n⟩
    dsimp only
    rw [h.ctx.graph.flatMap_linkedNodes_eq hn, List.foldl_map, h.needed.getD_eq hn, ← List.map_cons]
    refine List.foldl_rel (r := SameNeeds ρ loose) h.needed fun r hr _ _ htables ↦ ?_
    obtain ⟨p, -, hr⟩ := List.mem_flatMap.1 hr
    exact htables.update h.ctx.graph.injective hplaces hps
      (h.ctx.graph.not_loose_of_mem_linkedNodes hr)
  · exact h

/-- Nothing is copied from or to an extra node. -/
theorem skip (hm : ∀ n, ¬loose n → ρ n ≠ m) (hlive : t.ctx.graph.contains m = true) :
    Twin ρ loose shared s (Inline.step schedule' t m) := by
  obtain ⟨x, hx⟩ := Option.isSome_iff_exists.1 hlive
  have hcomment := h.ctx.graph.extra m x hm hx
  have hpure : t.ctx.graph.isPure m = true :=
    Graph.isPure_of_isComment (by rw [Graph.kindIs, Graph.kind?, hx]; exact hcomment)
  have hmarks : t.ctx.generatedCode m = false := by
    rw [FunctionContext.generatedCode, List.any_eq_false]
    intro u hu
    simp [h.ctx.marks m hm u hu]
  rw [Inline.step, if_pos hpure, Inline.propagate, h.needed.idle m hm, hmarks]
  exact h

theorem step (hplaces : SameOrder ρ loose schedule schedule') (hn : ¬loose n) :
    Twin ρ loose shared (Inline.step schedule s n) (Inline.step schedule' t (ρ n)) := by
  unfold Inline.step
  rw [h.ctx.graph.isPure_eq hn]
  split
  · exact h.propagate hplaces hn
  · exact h.finish hn

end State.Twin

end Inline

namespace FunctionContext.Twin

variable {ρ : NodeId → NodeId} {loose : NodeId → Prop} {shared : PinId → Prop}
  {c d : FunctionContext}

/-- Of twins that are scheduled the extra nodes leave the execution list with the pure ones. -/
theorem inlinePureNodes (h : Twin ρ loose shared c d) (hlist : c.executionList = c.graph.schedule.1)
    (hlist' : d.executionList = d.graph.schedule.1) :
    Twin ρ loose shared c.inlinePureNodes d.inlinePureNodes ∧
      d.inlinePureNodes.executionList = c.inlinePureNodes.executionList.map ρ ∧
      ∀ n ∈ c.inlinePureNodes.executionList, ¬loose n := by
  have hspread := h.graph.schedule
  rw [← hlist, ← hlist'] at hspread
  have hnodup : c.executionList.Nodup := hlist ▸ Graph.nodup_schedule h.graph.wellFormed.nodup_order
  have hnodup' : d.executionList.Nodup :=
    hlist' ▸ Graph.nodup_schedule h.graph.wellFormed'.nodup_order
  have hplaces : Inline.SameOrder ρ loose c.executionList d.executionList := fun m n hm hn ↦ by
    rw [Inline.placeIn_eq_idxOf hnodup, Inline.placeIn_eq_idxOf hnodup,
      Inline.placeIn_eq_idxOf hnodup', Inline.placeIn_eq_idxOf hnodup']
    exact hspread.idxOf_le_iff h.graph.injective (fun hextra ↦ hextra m hm rfl)
      fun hextra ↦ hextra n hn rfl
  have hgraph {schedule : List NodeId} (s : Inline.State) (n : NodeId) :
      (Inline.step schedule s n).ctx.graph = s.ctx.graph := by
    obtain ⟨table, htable⟩ : ∃ table, (Inline.step schedule s n).ctx = s.ctx.withCode table :=
      Inline.frame_step ⟨s.ctx.nodeStatements, rfl⟩
    rw [htable]
    rfl
  obtain ⟨hwalk, -⟩ : Inline.State.Twin ρ loose shared
      (c.executionList.foldl (Inline.step c.executionList) { ctx := c })
      (d.executionList.foldl (Inline.step d.executionList) { ctx := d }) ∧
      (d.executionList.foldl (Inline.step d.executionList) { ctx := d }).ctx.graph = d.graph := by
    refine hspread.foldl
      (S := fun s t ↦ Inline.State.Twin ρ loose shared s t ∧ t.ctx.graph = d.graph)
      (fun s t m hm hextra ⟨hst, hsame⟩ ↦ ?_) (fun s t n m hn _ hnm ⟨hst, hsame⟩ ↦ ?_)
      ⟨⟨h, ⟨fun _ _ ↦ rfl, fun _ _ hp ↦ (List.not_mem_nil hp).elim, fun _ _ ↦ rfl⟩, rfl, by simp⟩,
        rfl⟩
    · rw [hlist'] at hm
      refine ⟨hst.skip hextra ?_, (hgraph t m).trans hsame⟩
      rw [hsame]
      exact (h.graph.wellFormed'.mem_order m).1 (Graph.mem_order_of_mem_schedule hm)
    · subst hnm
      rw [hlist] at hn
      exact ⟨hst.step hplaces (h.graph.tight n (Graph.mem_order_of_mem_schedule hn)),
        (hgraph t _).trans hsame⟩
  exact ⟨{ hwalk.ctx with core := hwalk.ctx.core }, hwalk.kept, hwalk.kept_tight⟩

end FunctionContext.Twin

/-- A walk along renumbered vertices visits the same vertices. -/
theorem visit_map {α β : Type} [DecidableEq α] [DecidableEq β] {ρ : α → β}
    (hinj : Function.Injective ρ) {next : α → List α} {next' : β → List β} {vertices : List α}
    (hnext : ∀ a ∈ vertices, next' (ρ a) = (next a).map ρ) (seen stack : List α) :
    visit next' (vertices.map ρ) (seen.map ρ) (stack.map ρ) =
      (visit next vertices seen stack).map ρ := by
  induction seen, stack using visit_induction next vertices with
  | hdone seen stack hnone =>
    rw [visit_nil next vertices hnone, visit_nil]
    intro b hb hvertex
    obtain ⟨a, ha, rfl⟩ := List.mem_map.1 hb
    exact List.mem_map_of_mem (hnone a ha ((List.mem_map_of_injective hinj).1 hvertex))
  | hvisit seen old a rest hold ha hnew ih =>
    rw [visit_cons next vertices hold ha hnew, List.map_append, List.map_cons,
      visit_cons, hnext a ha, ← List.map_cons, ← List.map_append, ih]
    · intro b hb hvertex
      obtain ⟨c, hc, rfl⟩ := List.mem_map.1 hb
      exact List.mem_map_of_mem (hold c hc ((List.mem_map_of_injective hinj).1 hvertex))
    · exact List.mem_map_of_mem ha
    · exact mt (List.mem_map_of_injective hinj).1 hnew

namespace Assoc

variable {κ κ' ν : Type} [DecidableEq κ] [DecidableEq κ'] {ρ : κ → κ'}

theorem set_map (hinj : Function.Injective ρ) (key : κ) (value : ν) (table : List (κ × ν)) :
    set (ρ key) value (table.map (Prod.map ρ id)) = (set key value table).map (Prod.map ρ id) := by
  induction table with
  | nil => rfl
  | cons e table ih =>
    obtain ⟨k, v⟩ := e
    rw [List.map_cons, Prod.map_apply, id, set, set, ih]
    by_cases heq : k = key
    · rw [if_pos heq, if_pos (congrArg ρ heq)]
      rfl
    · rw [if_neg heq, if_neg (mt (hinj ·) heq)]
      rfl

theorem setAll_map (hinj : Function.Injective ρ) (table entries : List (κ × ν)) :
    setAll (table.map (Prod.map ρ id)) (entries.map (Prod.map ρ id)) =
      (setAll table entries).map (Prod.map ρ id) := by
  induction entries generalizing table with
  | nil => rfl
  | cons e entries ih =>
    unfold setAll at ih ⊢
    rw [List.map_cons, List.foldl_cons, List.foldl_cons, ← ih]
    congr 1
    exact set_map hinj e.1 e.2 table

theorem lookup_map (hinj : Function.Injective ρ) (key : κ) (table : List (κ × ν)) :
    (table.map (Prod.map ρ id)).lookup (ρ key) = table.lookup key := by
  induction table with
  | nil => rfl
  | cons e table ih =>
    obtain ⟨k, v⟩ := e
    rw [List.map_cons, Prod.map_apply, id, lookup_cons_ite, lookup_cons_ite, ih]
    by_cases heq : key = k
    · rw [if_pos heq, if_pos (congrArg ρ heq)]
    · rw [if_neg heq, if_neg (mt (hinj ·) heq)]

end Assoc

namespace FunctionContext

theorem core_setStatements {c d : FunctionContext} (h : d.core = c.core)
    (statements : List Statement) (labels labels' : List (NodeId × Nat)) :
    { d with statements, nodeLabels := labels' }.core =
      { c with statements, nodeLabels := labels }.core :=
  (congrArg (fun c : FunctionContext ↦ { c with statements }) h :)

namespace Twin

variable {ρ : NodeId → NodeId} {loose : NodeId → Prop} {shared : PinId → Prop}
  {c d : FunctionContext} {n : NodeId} {p : PinId}

/-! ## Order -/

theorem sortForFallThrough (h : Twin ρ loose shared c d)
    (hlist : d.executionList = c.executionList.map ρ) (htight : ∀ n ∈ c.executionList, ¬loose n) :
    Twin ρ loose shared c.sortForFallThrough d.sortForFallThrough ∧
      d.sortForFallThrough.executionList = c.sortForFallThrough.executionList.map ρ ∧
      ∀ n ∈ c.sortForFallThrough.executionList, ¬loose n := by
  refine ⟨{ h with core := h.core }, ?_, fun n hn ↦ ?_⟩
  · change (reach d.graph.execSuccessors d.executionList
        (d.entryPoint.toList ++ d.executionList)).reverse =
      (reach c.graph.execSuccessors c.executionList
        (c.entryPoint.toList ++ c.executionList)).reverse.map ρ
    have hstarts : d.entryPoint.toList ++ d.executionList =
        (c.entryPoint.toList ++ c.executionList).map ρ := by
      rw [h.entry, hlist, List.map_append]
      cases c.entryPoint <;> rfl
    rw [hstarts, hlist, List.map_reverse]
    congr 1
    exact visit_map h.graph.injective (fun n hn ↦ h.graph.execSuccessors_eq (htight n hn)) [] _
  · exact htight n (mem_reach.1 (List.mem_reverse.1 hn)).mem_vertices

/-! ## Jumps -/

section Jumps

variable (h : Twin ρ loose shared c d)
include h

theorem hasCode_eq (hn : ¬loose n) : d.hasCode (ρ n) = c.hasCode n := by
  rw [hasCode, hasCode, h.statementsOf_eq hn]

theorem gotoNode?_eq (hp : shared p) : d.gotoNode? p = (c.gotoNode? p).map ρ := by
  rw [gotoNode?, gotoNode?, h.graph.linkedNodes_eq hp, List.head?_map]

theorem find?_hasCode {l : List NodeId} (hl : ∀ n ∈ l, ¬loose n) :
    (l.map ρ).find? d.hasCode = (l.find? c.hasCode).map ρ := by
  rw [List.find?_map]
  congr 1
  exact List.find?_congr fun n hn ↦ h.hasCode_eq (hl n hn)

theorem effectiveTarget?_eq {l : List NodeId} (hl : ∀ n ∈ l, ¬loose n) (hp : shared p) :
    d.effectiveTarget? (l.map ρ) p = (c.effectiveTarget? l p).map ρ := by
  unfold effectiveTarget?
  rw [h.gotoNode?_eq hp]
  cases c.gotoNode? p with
  | none => rfl
  | some target =>
    change ((l.map ρ).dropWhile (· ≠ ρ target)).find? d.hasCode =
      ((l.dropWhile (· ≠ target)).find? c.hasCode).map ρ
    have hdrop : (l.map ρ).dropWhile (· ≠ ρ target) = (l.dropWhile (· ≠ target)).map ρ := by
      rw [List.dropWhile_map]
      congr 2
      funext n
      simp [h.graph.injective.eq_iff]
    rw [hdrop]
    exact h.find?_hasCode fun n hn ↦ hl n ((List.dropWhile_sublist _).mem hn)

theorem endsRedundantly_eq {list after : List NodeId} (hlist : ∀ n ∈ list, ¬loose n)
    (hafter : ∀ n ∈ after, ¬loose n) (hn : ¬loose n) :
    d.endsRedundantly (list.map ρ) (after.map ρ) (ρ n) = c.endsRedundantly list after n := by
  unfold endsRedundantly
  rw [h.statementsOf_eq hn, h.find?_hasCode hafter, h.isEventGraph]
  cases hlast : (c.statementsOf n).getLast? with
  | none => rfl
  | some s =>
    have htargets := h.targets n s (List.mem_of_getLast? hlast)
    split
    · next p heq =>
      obtain rfl := Option.some.inj heq
      have hp := htargets p rfl
      dsimp only
      rw [h.effectiveTarget?_eq hlist hp]
      exact decide_eq_decide.2 (Option.map_injective h.graph.injective).eq_iff
    · next heq =>
      obtain rfl := Option.some.inj heq
      dsimp only
      rw [Option.isNone_map]
    · next hgoto hreturn =>
      cases s with
      | unconditionalGoto target =>
        cases target with
        | pin p => exact absurd rfl (hgoto p)
        | resolved index => rfl
      | gotoReturn => exact absurd rfl hreturn
      | _ => rfl

theorem dropLastOf (hn : ¬loose n) :
    Twin ρ loose shared (c.dropLastOf n) (d.dropLastOf (ρ n)) := by
  unfold FunctionContext.dropLastOf
  refine { h with
    code := fun m hm ↦ ?_, marks := fun m hm t ht ↦ ?_, targets := fun m t ht p hp ↦ ?_ }
  · simp only [Assoc.lookup_update, h.graph.injective.eq_iff, h.code n hn, h.code m hm]
  · rw [statementsOf, Assoc.lookup_update, if_neg (hm n hn).symm] at ht
    exact h.marks m hm t ht
  · rw [statementsOf, Assoc.lookup_update] at ht
    split at ht
    · exact h.targets n t (List.mem_of_mem_dropLast ht) p hp
    · exact h.targets m t ht p hp

end Jumps

theorem dropRedundantJumps (h : Twin ρ loose shared c d) {list after : List NodeId}
    (hlist : ∀ n ∈ list, ¬loose n) (hafter : ∀ n ∈ after, ¬loose n) :
    Twin ρ loose shared (dropRedundantJumps list after c)
      (dropRedundantJumps (list.map ρ) (after.map ρ) d) := by
  induction after with
  | nil => exact h
  | cons n after ih =>
    obtain ⟨hn, hafter⟩ := List.forall_mem_cons.1 hafter
    have ih := ih hafter
    rw [List.map_cons, FunctionContext.dropRedundantJumps, FunctionContext.dropRedundantJumps,
      ih.endsRedundantly_eq hlist hafter hn]
    split
    · exact ih.dropLastOf hn
    · exact ih

theorem labelsFrom_eq (h : Twin ρ loose shared c d) (k : Nat) {l : List NodeId}
    (hl : ∀ n ∈ l, ¬loose n) :
    d.labelsFrom k (l.map ρ) = (c.labelsFrom k l).map (Prod.map ρ id) := by
  induction l generalizing k with
  | nil => rfl
  | cons n l ih =>
    obtain ⟨hn, hl⟩ := List.forall_mem_cons.1 hl
    rw [List.map_cons, labelsFrom, labelsFrom, h.statementsOf_eq hn, ih _ hl]
    rfl

theorem flatten_eq (h : Twin ρ loose shared c d) {l : List NodeId} (hl : ∀ n ∈ l, ¬loose n) :
    d.flatten (l.map ρ) = c.flatten l := by
  rw [flatten, flatten, List.flatMap_map]
  exact List.flatMap_congr fun n hn ↦ h.statementsOf_eq (hl n hn)

/-- Twins that execute the same nodes have the same code. -/
theorem resolveJumps (h : Twin ρ loose shared c d) (hlist : d.executionList = c.executionList.map ρ)
    (htight : ∀ n ∈ c.executionList, ¬loose n) :
    Twin ρ loose shared c.resolveJumps d.resolveJumps ∧
      ∀ n, d.resolveJumps.nodeLabels.lookup (ρ n) = c.resolveJumps.nodeLabels.lookup n := by
  have hdropped := h.dropRedundantJumps htight htight
  unfold FunctionContext.resolveJumps
  rw [hlist]
  dsimp only
  generalize FunctionContext.dropRedundantJumps c.executionList c.executionList c = c' at hdropped ⊢
  generalize FunctionContext.dropRedundantJumps (c.executionList.map ρ) (c.executionList.map ρ) d =
    d' at hdropped ⊢
  have hlabels (n : NodeId) :
      (Assoc.setAll [] (d'.labelsFrom 0 (c.executionList.map ρ))).lookup (ρ n) =
        (Assoc.setAll [] (c'.labelsFrom 0 c.executionList)).lookup n := by
    rw [hdropped.labelsFrom_eq 0 htight,
      ← Assoc.lookup_map hdropped.graph.injective n (Assoc.setAll [] _),
      ← Assoc.setAll_map hdropped.graph.injective]
    rfl
  refine ⟨{ hdropped with core := ?_ }, hlabels⟩
  have htail : d'.tail = c'.tail := by
    rw [tail, hdropped.isEventGraph, tail]
  have hstatements : (d'.flatten (c.executionList.map ρ) ++ d'.tail).map
        (·.mapTarget (d'.resolveTarget (Assoc.setAll [] (d'.labelsFrom 0 (c.executionList.map ρ)))
          (d'.flatten (c.executionList.map ρ)).length)) =
      (c'.flatten c.executionList ++ c'.tail).map
        (·.mapTarget (c'.resolveTarget (Assoc.setAll [] (c'.labelsFrom 0 c.executionList))
          (c'.flatten c.executionList).length)) := by
    rw [hdropped.flatten_eq htight, htail]
    refine List.map_congr_left fun s hs ↦ Statement.mapTarget_congr fun target htarget ↦ ?_
    cases target with
    | resolved index => rfl
    | pin p =>
      have hp : shared p := by
        rcases List.mem_append.1 hs with hs | hs
        · obtain ⟨n, -, hs⟩ := List.mem_flatMap.1 hs
          exact hdropped.targets n s hs p htarget
        · have hnone : s.target? = none := by
            unfold tail at hs
            split at hs
            · simp only [List.mem_cons, List.not_mem_nil, or_false] at hs
              rcases hs with rfl | rfl <;> rfl
            · rw [List.mem_singleton.1 hs]
              rfl
          rw [hnone] at htarget
          cases htarget
      unfold resolveTarget
      dsimp only
      rw [hdropped.gotoNode?_eq hp, Option.bind_map]
      have hlookup : (fun n ↦ List.lookup n (Assoc.setAll [] (c'.labelsFrom 0 c.executionList))) =
          (List.lookup · (Assoc.setAll [] (d'.labelsFrom 0 (c.executionList.map ρ)))) ∘ ρ :=
        funext fun n ↦ (hlabels n).symm
      rw [hlookup]
  rw [hstatements]
  exact core_setStatements hdropped.core _ _ _

end Twin

end FunctionContext

end VisualScript
