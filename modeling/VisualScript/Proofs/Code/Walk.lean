import VisualScript.Compile.Order
import VisualScript.Proofs.Code.Emission
import VisualScript.Proofs.Graph.Linking
import VisualScript.Proofs.Run.Script
import VisualScript.Proofs.Graph.Pins

/-!
# Walking a graph

What a function means is told by walking its graph along exec links.  A visit to
an impure node performs the operations of the pure nodes that it reads, as they
are scheduled, and then its own.  The code of the nodes runs like the walk.
-/

namespace VisualScript

open Machine

/-! ## The walk -/

/-- The node behind the first link of a pin, if it is not pure. -/
def Graph.follow (g : Graph) (p : PinId) : Option NodeId :=
  ((g.linksOf p).head?.bind g.ownerOf?).filter (!g.isPure ·)

namespace FunctionContext

variable {ε : Type} (c : FunctionContext)

/-- The operations of a node of the graph. -/
def operations (n : NodeId) : List Statement :=
  ((c.graph.kind? n).map (c.operationsOf n)).getD []

/-- What a visit to an impure node performs. -/
def visit (n : NodeId) : List Statement :=
  (c.graph.schedule.1.filter (· ∈ c.graph.sources n) ++ [n]).flatMap c.operations

/-- Whether the condition of a branch holds. -/
def conditionHolds (o : Observer ε) (events : List ε) (n : NodeId) : Bool :=
  ((c.graph.findPin? n PinName.condition (some .input)).bind c.inputTerm?).any (o.holds events)

/-- Where the walk goes on from a node. -/
def nextNode? (o : Observer ε) (events : List ε) (n : NodeId) : Option NodeId :=
  match c.graph.kind? n with
  | some .functionResult => none
  | some .branch =>
    (c.graph.findPin? n (if c.conditionHolds o events n then PinName.thenOut else PinName.elseOut)
      (some .output)).bind c.graph.follow
  | _ => (c.graph.findPin? n PinName.thenOut (some .output)).bind c.graph.follow

/-- Walks the graph from node to node.  The walk ends well where there is no node to go to. -/
def walk (o : Observer ε) : Machine NodeId ε Bool where
  move events n :=
    let new := (c.visit n).flatMap o.sees
    match c.nextNode? o (events ++ new) n with
    | some m => .go new m
    | none => .stop new true

/-! ## Code that performs the walk -/

/-- The function `d` has for every node code that performs a visit to it in `c` and exits. -/
structure Performs (c d : FunctionContext) (o : Observer ε) : Prop where
  graph : d.graph = c.graph
  isFunction : c.isEventGraph = false
  tail : d.tail = [.ret]
  mem : ∀ n, n ∈ d.executionList ↔ n ∈ c.graph.order ∧ c.graph.isPure n = false
  code : ∀ n ∈ d.executionList, ∃ code kind, c.graph.kind? n = some kind ∧
    d.statementsOf n = code ++ c.exitOf n kind ∧ (∀ s ∈ code, s.isStraight = true) ∧
    code.flatMap o.sees = (c.visit n).flatMap o.sees
  silent : ∀ s : Statement, s.isOperation = false → o.sees s = []
  compilable : ∀ n ∈ d.executionList, ∀ kind, c.graph.kind? n = some kind →
    kind.tag.hasHandler = true ∧ kind.tag ≠ .timeline ∧ (kind = .branch → c.branchExit n ≠ [])

variable {c} {d : FunctionContext} {o : Observer ε} {n : NodeId}

/-- The plain program goes to the code of the next node, or returns if there is none. -/
def GoesTo (d : FunctionContext) (o : Observer ε) (events : List ε) (pc : Nat)
    (next : Option NodeId) : Prop :=
  ∃ k, (d.plainMachine o d.executionList).after (k + 1) (events, .inl pc) =
    match next with
    | some m => (events, .inl (d.startOf d.executionList m))
    | none => (events, .inr (some .ret))

theorem GoesTo.of_step {events : List ε} {pc pc' : Nat} {next : Option NodeId}
    (hstep : (d.plainMachine o d.executionList).step (events, .inl pc) = (events, .inl pc'))
    (h : GoesTo d o events pc' next) : GoesTo d o events pc next := by
  obtain ⟨k, hk⟩ := h
  exact ⟨k + 1, by rw [after_succ, hstep, hk]⟩

namespace Performs

variable (h : Performs c d o)
include h

theorem mem_of_follow (hwf : c.graph.WellFormed) {p : PinId} {m : NodeId}
    (hm : c.graph.follow p = some m) : m ∈ d.executionList := by
  obtain ⟨hbehind, himpure⟩ := Option.filter_eq_some_iff.1 hm
  obtain ⟨q, -, howner⟩ := Option.bind_eq_some_iff.1 hbehind
  obtain ⟨pin, hpin, rfl⟩ := Graph.ownerOf?_eq_some.1 howner
  exact (h.mem pin.owner).2 ⟨hwf.owner_mem_order hpin, by simpa using himpure⟩

/-- The tail returns. -/
theorem goesTo_tail (events : List ε) {pc : Nat}
    (hdrop : (d.codeOf d.executionList).drop pc = [.ret]) : GoesTo d o events pc none := by
  refine ⟨0, ?_⟩
  rw [after_succ, plainMachine, step_stop (Code.move_final events hdrop rfl), h.silent _ rfl]
  simp

theorem goesTo_gotoReturn (events : List ε) {pc : Nat} {rest : List Statement}
    (hpc : (d.codeOf d.executionList).drop pc = .gotoReturn :: rest) :
    GoesTo d o events pc none := by
  refine .of_step ?_ (h.goesTo_tail events (d.drop_last d.executionList))
  rw [plainMachine, step_go (Code.move_gotoReturn events hpc), List.append_nil]

/-- A jump to a pin goes on to the node behind its first link. -/
theorem goesTo_pin (hwf : c.graph.WellFormed) (hlinked : c.graph.Linked) (events : List ε)
    {pc : Nat} {p : PinId}
    (hstep : (d.plainMachine o d.executionList).step (events, .inl pc) =
      (events, .inl (d.plainIndex d.executionList (.pin p)))) :
    GoesTo d o events pc (c.graph.follow p) := by
  have htail : (d.codeOf d.executionList).drop (d.flatten d.executionList).length = [.ret] := by
    rw [drop_flatten_length, h.tail]
  have hgoto : d.gotoNode? p = (c.graph.linksOf p).head?.bind c.graph.ownerOf? := by
    rw [gotoNode?, h.graph, hlinked.head?_linkedNodes]
  rw [plainIndex, hgoto] at hstep
  unfold Graph.follow
  cases hm : (c.graph.linksOf p).head?.bind c.graph.ownerOf? with
  | none =>
    rw [hm] at hstep
    exact .of_step hstep (h.goesTo_tail events htail)
  | some m =>
    rw [hm] at hstep
    by_cases hmem : m ∈ d.executionList
    · have himpure : (!c.graph.isPure m) = true := by simpa using ((h.mem m).1 hmem).2
      rw [Option.filter_some, if_pos himpure]
      exact ⟨0, by rw [after_succ, hstep]; rfl⟩
    · have hpure : ¬(!c.graph.isPure m) = true := fun himpure ↦
        hmem (h.mem_of_follow hwf (by rw [Graph.follow, hm, Option.filter_some, if_pos himpure]))
      rw [Option.filter_some, if_neg hpure]
      refine .of_step hstep (h.goesTo_tail events ?_)
      rw [Option.map_some, Option.getD_some, startOf_of_notMem hmem, htail]

theorem goesTo_goto (hwf : c.graph.WellFormed) (hlinked : c.graph.Linked) (events : List ε)
    {pc : Nat} {p : PinId} {rest : List Statement}
    (hpc : (d.codeOf d.executionList).drop pc = .unconditionalGoto (.pin p) :: rest) :
    GoesTo d o events pc (c.graph.follow p) := by
  refine h.goesTo_pin hwf hlinked events ?_
  rw [plainMachine, step_go (Code.move_goto events hpc), List.append_nil]

/-- The exit through the `then` pin. -/
theorem goesTo_thenExit (hwf : c.graph.WellFormed) (hlinked : c.graph.Linked) (events : List ε)
    {pc : Nat} {rest : List Statement}
    (hpc : (d.codeOf d.executionList).drop pc = c.thenExit n :: rest) :
    GoesTo d o events pc
      ((c.graph.findPin? n PinName.thenOut (some .output)).bind c.graph.follow) := by
  unfold thenExit at hpc
  rw [h.isFunction] at hpc
  cases hp : c.graph.findPin? n PinName.thenOut (some .output) with
  | none =>
    rw [hp] at hpc
    exact h.goesTo_gotoReturn events hpc
  | some p =>
    rw [hp] at hpc
    by_cases hlinks : (c.graph.linksOf p).isEmpty
    · rw [Option.filter_some, if_neg (by simp [hlinks])] at hpc
      have hfollow : c.graph.follow p = none := by
        rw [Graph.follow, List.isEmpty_iff.1 hlinks]
        rfl
      rw [Option.bind_some, hfollow]
      exact h.goesTo_gotoReturn events hpc
    · rw [Option.filter_some, if_pos (by simp [hlinks])] at hpc
      exact h.goesTo_goto hwf hlinked events hpc

/-- The exit of a branch. -/
theorem goesTo_branchExit (hwf : c.graph.WellFormed) (hlinked : c.graph.Linked)
    (hexit : c.branchExit n ≠ []) (events : List ε) {pc : Nat} {rest : List Statement}
    (hpc : (d.codeOf d.executionList).drop pc = c.branchExit n ++ rest) :
    GoesTo d o events pc
      ((c.graph.findPin? n (if c.conditionHolds o events n then PinName.thenOut
        else PinName.elseOut) (some .output)).bind c.graph.follow) := by
  unfold branchExit at hexit hpc
  unfold conditionHolds
  cases hcondition : c.graph.findPin? n PinName.condition (some .input) with
  | none => simp [hcondition] at hexit
  | some condition =>
    cases hthen : c.graph.findPin? n PinName.thenOut (some .output) with
    | none => simp [hcondition, hthen] at hexit
    | some thenPin =>
      cases helse : c.graph.findPin? n PinName.elseOut (some .output) with
      | none => simp [hcondition, hthen, helse] at hexit
      | some elsePin =>
        rw [hcondition, hthen, helse] at hpc hexit
        dsimp only at hpc hexit
        cases ht : c.inputTerm? condition with
        | none => simp [ht] at hexit
        | some t =>
          rw [ht] at hpc
          have hstep : (d.plainMachine o d.executionList).step (events, .inl pc) = (events, .inl
              (if o.holds events t then pc + 1 else d.plainIndex d.executionList (.pin elsePin))) := by
            rw [plainMachine, step_go (Code.move_gotoIfNot events hpc), h.silent _ rfl,
              List.append_nil]
          rw [Option.bind_some, ht, Option.any_some]
          cases hholds : o.holds events t with
          | true =>
            rw [hholds, if_pos rfl] at hstep
            rw [if_pos rfl, hthen, Option.bind_some]
            exact .of_step hstep (h.goesTo_goto hwf hlinked events (Code.drop_succ hpc))
          | false =>
            rw [hholds, if_neg (by decide)] at hstep
            rw [if_neg (by decide), helse, Option.bind_some]
            exact h.goesTo_pin hwf hlinked events hstep

/-- The exit of a node goes where the walk goes on. -/
theorem goesTo_exit (hwf : c.graph.WellFormed) (hlinked : c.graph.Linked)
    (hn : n ∈ d.executionList) {kind : NodeKind} (hkind : c.graph.kind? n = some kind)
    (events : List ε) {pc : Nat} {rest : List Statement}
    (hpc : (d.codeOf d.executionList).drop pc = c.exitOf n kind ++ rest) :
    GoesTo d o events pc (c.nextNode? o events n) := by
  obtain ⟨hhandler, htimeline, hbranch⟩ := h.compilable n hn kind hkind
  have himpure : kind.isPure = false :=
    (Graph.isPure_of_kind? hkind).symm.trans ((h.mem n).1 hn).2
  unfold nextNode?
  rw [hkind]
  cases kind with
  | functionResult => exact h.goesTo_gotoReturn events hpc
  | branch => exact h.goesTo_branchExit hwf hlinked (hbranch rfl) events hpc
  | functionEntry data =>
    rw [exitOf, h.isFunction, if_neg (by decide)] at hpc
    exact h.goesTo_thenExit hwf hlinked events hpc
  | event data => exact h.goesTo_thenExit hwf hlinked events hpc
  | variableSet var => exact h.goesTo_thenExit hwf hlinked events hpc
  | callFunction call =>
    have hcall : call.isPure = false := himpure
    rw [exitOf, hcall, if_neg (by decide)] at hpc
    exact h.goesTo_thenExit hwf hlinked events hpc
  | timeline name => exact absurd rfl htimeline
  | macroInstance data | tunnel entry => cases hhandler
  | variableGet var | temporaryVariable ty | knot ty | makeArray element count | comment text =>
    cases himpure

/-- The code of the nodes runs like the walk. -/
theorem simulation (hwf : c.graph.WellFormed) (hlinked : c.graph.Linked) :
    Simulation (c.walk o) ((d.plainMachine o d.executionList).mapFinal endedWell)
      (fun n pc ↦ n ∈ d.executionList ∧ pc = d.startOf d.executionList n) (fun _ ↦ 0) := by
  have hvisit (events : List ε) {n : NodeId} (hn : n ∈ d.executionList) :
      ∃ k, (d.plainMachine o d.executionList).after (k + 1)
          (events, .inl (d.startOf d.executionList n)) =
        match c.nextNode? o (events ++ (c.visit n).flatMap o.sees) n with
        | some m => (events ++ (c.visit n).flatMap o.sees, .inl (d.startOf d.executionList m))
        | none => (events ++ (c.visit n).flatMap o.sees, .inr (some .ret)) := by
    obtain ⟨code, kind, hkind, hstatements, hstraight, hevents⟩ := h.code n hn
    obtain ⟨rest, hrest⟩ := nodesFrom_of_mem hn
    have hdrop : (d.codeOf d.executionList).drop (d.startOf d.executionList n) =
        code ++ (c.exitOf n kind ++ d.codeOf rest) := by
      rw [drop_startOf, hrest, codeOf_cons, hstatements, List.append_assoc]
    have hrun := Code.after_straight (o := o) events (d.plainIndex d.executionList) hdrop hstraight
    rw [hevents] at hrun
    have hexit : (d.codeOf d.executionList).drop (d.startOf d.executionList n + code.length) =
        c.exitOf n kind ++ d.codeOf rest := by
      rw [← List.drop_drop, hdrop, List.drop_left]
    obtain ⟨k, hk⟩ :=
      h.goesTo_exit hwf hlinked hn hkind (events ++ (c.visit n).flatMap o.sees) hexit
    refine ⟨k + code.length, ?_⟩
    rw [← hk, Nat.add_right_comm, after_add, plainMachine, hrun]
  have hnext (events : List ε) {n m : NodeId} (hm : c.nextNode? o events n = some m) :
      m ∈ d.executionList := by
    unfold nextNode? at hm
    split at hm
    · cases hm
    · obtain ⟨p, -, hp⟩ := Option.bind_eq_some_iff.1 hm
      exact h.mem_of_follow hwf hp
    · obtain ⟨p, -, hp⟩ := Option.bind_eq_some_iff.1 hm
      exact h.mem_of_follow hwf hp
  refine ⟨fun {n pc events new final} hR hmove ↦ ?_, fun {n m pc events new} hR hmove ↦ ?_⟩
  · obtain ⟨hn, rfl⟩ := hR
    obtain ⟨k, hk⟩ := hvisit events hn
    simp only [walk] at hmove
    split at hmove
    · cases hmove
    · next hnone =>
      cases hmove
      rw [hnone] at hk
      exact ⟨k + 1, by rw [after_mapFinal_inl, hk]; rfl⟩
  · obtain ⟨hn, rfl⟩ := hR
    obtain ⟨k, hk⟩ := hvisit events hn
    simp only [walk] at hmove
    split at hmove
    · next m hm =>
      cases hmove
      rw [hm] at hk
      exact .inr ⟨k, _, by rw [after_mapFinal_inl, hk]; rfl, hnext _ hm, rfl⟩
    · cases hmove

end Performs

end FunctionContext

/-!
## Walks along a path

Where running goes straight from node to node, a walk visits the nodes in turn and stops
after the last.
-/

open Machine

namespace FunctionContext

variable {ε : Type} {c : FunctionContext} {o : Observer ε} {n m : NodeId}

/-- The node goes on through its `then` pin. -/
def LeavesByThen (c : FunctionContext) (n : NodeId) : Prop :=
  c.graph.kind? n ≠ some .functionResult ∧ c.graph.kind? n ≠ some .branch

theorem LeavesByThen.nextNode?_eq (h : c.LeavesByThen n) (events : List ε) :
    c.nextNode? o events n =
      (c.graph.findPin? n PinName.thenOut (some .output)).bind c.graph.follow := by
  unfold nextNode?
  split
  · next hkind => exact absurd hkind h.1
  · next hkind => exact absurd hkind h.2
  · rfl

theorem follow_of_goesOn (h : c.graph.GoesOn n m) (himpure : c.graph.isPure m = false) :
    (c.graph.findPin? n PinName.thenOut (some .output)).bind c.graph.follow = some m := by
  obtain ⟨p, q, hp, -, hlinks, howner⟩ := h
  rw [hp, Option.bind_some, Graph.follow, hlinks, List.head?_cons, Option.bind_some, howner,
    Option.filter_some, if_pos (by simp [himpure])]

/-- Where nothing is pure, a visit to a node performs its own operations only. -/
theorem visit_eq_operations (h : ∀ m ∈ c.graph.order, c.graph.isPure m = false) (n : NodeId) :
    c.visit n = c.operations n := by
  have hnone : c.graph.sources n = [] := by
    refine List.eq_nil_iff_forall_not_mem.2 fun m hm ↦ ?_
    have hvertex := (mem_reach.1 hm).mem_vertices
    obtain ⟨horder, hpure⟩ := List.mem_filter.1 hvertex
    rw [h m horder] at hpure
    exact Bool.false_ne_true hpure
  rw [visit, hnone]
  simp

/-- A walk along a path makes visible what the visits to its nodes perform, and stops well. -/
theorem stopsWith_walk {path : List NodeId} (hchain : (n :: path).IsChain c.graph.GoesOn)
    (hmem : ∀ m ∈ n :: path, c.graph.isPure m = false ∧ c.LeavesByThen m)
    (hlast : (c.graph.findPin? ((n :: path).getLast (List.cons_ne_nil n path)) PinName.thenOut
      (some .output)).bind c.graph.follow = none) :
    (c.walk o).StopsWith n ((n :: path).flatMap fun m ↦ (c.visit m).flatMap o.sees) true := by
  suffices h : ∀ events : List ε, (c.walk o).after (path.length + 1) (events, .inl n) =
      (events ++ (n :: path).flatMap (fun m ↦ (c.visit m).flatMap o.sees), .inr true) from
    ⟨path.length + 1, h []⟩
  intro events
  obtain ⟨⟨-, hleaves⟩, hmem'⟩ := List.forall_mem_cons.1 hmem
  induction path generalizing n events with
  | nil =>
    have hmove : (c.walk o).move events n = .stop ((c.visit n).flatMap o.sees) true := by
      simp only [walk, hleaves.nextNode?_eq]
      rw [show (c.graph.findPin? n PinName.thenOut (some .output)).bind c.graph.follow = none from
        hlast]
    rw [List.length_nil, after_succ, step_stop hmove, after_inr, List.flatMap_singleton]
  | cons m path ih =>
    obtain ⟨hstep, hrest⟩ := List.isChain_cons_cons.1 hchain
    obtain ⟨⟨himpure, hleaves'⟩, hmem''⟩ := List.forall_mem_cons.1 hmem'
    have hmove : (c.walk o).move events n = .go ((c.visit n).flatMap o.sees) m := by
      simp only [walk, hleaves.nextNode?_eq, follow_of_goesOn hstep himpure]
    rw [List.length_cons, after_succ, step_go hmove, List.flatMap_cons, ← List.append_assoc]
    exact ih hrest hmem' (by rwa [List.getLast_cons_cons] at hlast) _ hmem'' hleaves'

end FunctionContext

end VisualScript
