import VisualScript.Proofs.Class.Carrying
import VisualScript.Proofs.Compile.Events
import VisualScript.Proofs.Compile.Lineage
import VisualScript.Proofs.Compile.Recompiling
import VisualScript.Proofs.Json.Classes

/-!
# Floats of a compiled Blueprint

A compile calculates nothing.  Every float of the Blueprint that it leaves behind is zero, stood
in the Blueprint before or is read from the text of a default value.
-/

namespace VisualScript

open Scalar

/-! ## Values without floats -/

/-- Values that hold integers at most. -/
class Floatless (α : Type) [HasScalars α] : Prop where
  allFinite (a : α) : AllFinite (scalars a)

instance : Floatless Nat := ⟨fun _ ↦ allFinite_singleton.2 rfl⟩

instance : Floatless NodeId := ⟨fun _ ↦ allFinite_singleton.2 rfl⟩

instance : Floatless PinId := ⟨fun _ ↦ allFinite_singleton.2 rfl⟩

section Containers

variable {α β : Type} [HasScalars α] [Floatless α]

instance : Floatless (Option α) where
  allFinite
    | none => allFinite_nil
    | some a => Floatless.allFinite a

instance : Floatless (List α) where
  allFinite xs s hs := by
    obtain ⟨x, -, hx⟩ := List.mem_flatMap.1 hs
    exact Floatless.allFinite x s hx

instance : Floatless (Slots α) := ⟨fun s ↦ Floatless.allFinite s.cells.toList⟩

end Containers

instance : Floatless NodeKind where
  allFinite kind := by
    cases kind with
    | makeArray element count => exact Floatless.allFinite count
    | _ => exact allFinite_nil

instance : Floatless Pin where
  allFinite p := allFinite_append.2 ⟨Floatless.allFinite p.id,
    allFinite_append.2 ⟨Floatless.allFinite p.owner, Floatless.allFinite p.links⟩⟩

instance : Floatless Position where
  allFinite _ := allFinite_append.2 ⟨allFinite_singleton.2 rfl, allFinite_singleton.2 rfl⟩

instance : Floatless Node where
  allFinite n := allFinite_append.2 ⟨Floatless.allFinite n.id,
    allFinite_append.2 ⟨Floatless.allFinite n.kind,
      allFinite_append.2 ⟨Floatless.allFinite n.pins, Floatless.allFinite n.position⟩⟩⟩

instance : Floatless Graph where
  allFinite g := allFinite_append.2 ⟨Floatless.allFinite g.nodes,
    allFinite_append.2 ⟨Floatless.allFinite g.pins, Floatless.allFinite g.order⟩⟩

instance : Floatless Property where
  allFinite p := allFinite_append.2 ⟨Floatless.allFinite p.offset, Floatless.allFinite p.size⟩

/-! ## Where floats come from -/

/-- The texts of default values with the types that they are read as. -/
abbrev DefaultTexts := List (PinType × String)

/-- The number is in the value that one of the texts is read as. -/
def Scalar.ReadFrom (texts : DefaultTexts) (s : Scalar) : Prop :=
  ∃ e ∈ texts, ∃ v, Value.parse? e.1 e.2 = some v ∧ s ∈ scalars v

/-- Each number is finite, is read from one of the texts or is one of those that are known. -/
def AllKnown (texts : DefaultTexts) (known l : List Scalar) : Prop :=
  ∀ s ∈ l, s.isFinite = true ∨ s.ReadFrom texts ∨ s ∈ known

variable {texts : DefaultTexts} {known : List Scalar}

namespace AllKnown

variable {l l' : List Scalar}

theorem append_iff :
    AllKnown texts known (l ++ l') ↔ AllKnown texts known l ∧ AllKnown texts known l' :=
  List.forall_mem_append

theorem of_subset (h : l ⊆ known) : AllKnown texts known l := fun _ hs ↦ .inr (.inr (h hs))

theorem of_allFinite (h : AllFinite l) : AllKnown texts known l := fun s hs ↦ .inl (h s hs)

theorem of_floatless {α : Type} [HasScalars α] [Floatless α] (a : α) :
    AllKnown texts known (scalars a) :=
  .of_allFinite (Floatless.allFinite a)

theorem of_parse {ty : PinType} {text : String} {v : Value} (htext : (ty, text) ∈ texts)
    (h : Value.parse? ty text = some v) : AllKnown texts known (scalars v) :=
  fun _ hs ↦ .inr (.inl ⟨_, htext, v, h, hs⟩)

theorem of_list {α : Type} [HasScalars α] {xs : List α}
    (h : ∀ x ∈ xs, AllKnown texts known (scalars x)) : AllKnown texts known (scalars xs) := by
  intro s hs
  obtain ⟨x, hx, hs⟩ := List.mem_flatMap.1 hs
  exact h x hx s hs

theorem of_option {α : Type} [HasScalars α] {o : Option α}
    (h : ∀ a, o = some a → AllKnown texts known (scalars a)) :
    AllKnown texts known (scalars o) := by
  cases o with
  | none => exact .of_allFinite allFinite_nil
  | some a => exact h a rfl

end AllKnown

/-! ## Scripts -/

theorem Value.allFinite_zero (ty : PinType) : AllFinite (scalars (Value.zero ty)) := by
  have hzero : AllFinite (scalars Numeric.Binary32.zero) := by decide
  have hvector : AllFinite (scalars (Value.vector .zero .zero .zero)) := by decide
  have hcolor : AllFinite (scalars (Value.linearColor .zero .zero .zero .zero)) := by decide
  unfold Value.zero
  split
  · exact allFinite_nil
  · split
    case h_4 => exact hzero
    case h_8 =>
      split
      · exact hvector
      · split
        · exact hcolor
        · exact allFinite_nil
    all_goals exact allFinite_nil

theorem Terminal.allKnown_literalValue {t : Terminal} (h : (t.ty, t.defaultValue) ∈ texts) :
    AllKnown texts known (scalars t.literalValue) := by
  have hread : AllKnown texts known
      (scalars ((Value.parse? t.ty t.defaultValue).getD (Value.zero t.ty))) := by
    cases hparse : Value.parse? t.ty t.defaultValue with
    | none => exact .of_allFinite (Value.allFinite_zero t.ty)
    | some v => exact .of_parse h hparse
  unfold literalValue
  split
  · split
    · exact .of_allFinite allFinite_nil
    · exact hread
  · exact hread

namespace FunctionContext

variable {c : FunctionContext}

/-- The texts of the literals of a function. -/
def literalTexts (c : FunctionContext) : DefaultTexts :=
  (c.terms.filter (·.isLiteral)).map fun t ↦ (t.ty, t.defaultValue)

theorem allKnown_operand (h : c.literalTexts ⊆ texts) (t : TermId) :
    AllKnown texts known (scalars (c.operand t)) := by
  unfold operand
  cases hterm : c.term? t with
  | none => exact .of_allFinite allFinite_nil
  | some term =>
    change AllKnown texts known (scalars term.operand)
    unfold Terminal.operand
    split
    case h_7 hkind =>
      have hliteral : term ∈ c.terms.filter (·.isLiteral) :=
        List.mem_filter.2 ⟨List.mem_of_getElem? hterm, decide_eq_true hkind⟩
      exact Terminal.allKnown_literalValue (h (List.mem_map_of_mem hliteral))
    all_goals exact .of_allFinite allFinite_nil

/-- The literals of a script are read from texts or zero. -/
theorem allKnown_script (h : c.literalTexts ⊆ texts) (skeletonOnly : Bool) :
    AllKnown texts known (scalars (c.script skeletonOnly)) := by
  have hoperands (ts : List TermId) : AllKnown texts known (scalars (ts.map c.operand)) := by
    refine .of_list fun o ho ↦ ?_
    obtain ⟨t, -, rfl⟩ := List.mem_map.1 ho
    exact allKnown_operand h t
  have hoptional (t : Option TermId) : AllKnown texts known (scalars (t.map c.operand)) := by
    refine .of_option fun o ho ↦ ?_
    obtain ⟨t, -, rfl⟩ := Option.map_eq_some_iff.1 ho
    exact allKnown_operand h t
  have hlower (returnIndex : Nat) (s : Statement) :
      AllKnown texts known (scalars (c.lower returnIndex s)) := by
    cases s with
    | debugSite node => exact .of_floatless node
    | callFunction function target args result =>
      exact AllKnown.append_iff.2 ⟨hoptional target,
        AllKnown.append_iff.2 ⟨hoperands args, hoptional result⟩⟩
    | assignment lhs rhs =>
      exact AllKnown.append_iff.2 ⟨allKnown_operand h lhs, allKnown_operand h rhs⟩
    | createArray array elements =>
      exact AllKnown.append_iff.2 ⟨allKnown_operand h array, hoperands elements⟩
    | unconditionalGoto target => exact .of_floatless (lowerTarget returnIndex target)
    | gotoIfNot condition target =>
      exact AllKnown.append_iff.2 ⟨allKnown_operand h condition,
        .of_floatless (lowerTarget returnIndex target)⟩
    | computedGoto term => exact allKnown_operand h term
    | gotoReturn => exact .of_floatless returnIndex
    | _ => exact .of_allFinite allFinite_nil
  have hret : AllKnown texts known (scalars [ScriptOp.ret]) := .of_allFinite allFinite_nil
  unfold script
  split
  · exact hret
  · refine .of_list fun op hop ↦ ?_
    obtain ⟨s, -, rfl⟩ := List.mem_map.1 hop
    exact hlower _ s

end FunctionContext

/-! ## Default objects -/

namespace Assoc

variable {κ ν : Type} [DecidableEq κ]

theorem mem_of_mem_set {key : κ} {value : ν} {table : List (κ × ν)} {e : κ × ν}
    (h : e ∈ set key value table) : e.2 = value ∨ e ∈ table := by
  induction table with
  | nil => exact .inl (congrArg Prod.snd (List.mem_singleton.1 h))
  | cons head rest ih =>
    rw [set] at h
    split at h
    · exact (List.mem_cons.1 h).imp (congrArg Prod.snd) (List.mem_cons_of_mem head)
    · rcases List.mem_cons.1 h with rfl | h
      · exact .inr List.mem_cons_self
      · exact (ih h).imp_right (List.mem_cons_of_mem head)

/-- What holds of the values of a table and of entries holds after the entries are set. -/
theorem forall_setAll {P : ν → Prop} {table entries : List (κ × ν)} (htable : ∀ e ∈ table, P e.2)
    (hentries : ∀ e ∈ entries, P e.2) : ∀ e ∈ setAll table entries, P e.2 :=
  List.foldlRecOn (motive := fun t ↦ ∀ e ∈ t, P e.2) entries _ htable fun _ ht entry hentry e he ↦
    (mem_of_mem_set he).elim (fun heq ↦ heq ▸ hentries entry hentry) (ht e)

end Assoc

namespace Class

theorem scalars_eq (c : Class) : scalars c = scalars c.own ++
    (superNumbers c.superClass ++ interfaceNumbers c.interfaces) := by
  cases c
  rfl

/-- The numbers of an ancestor are those of the class. -/
theorem subset_of_mem_hierarchy : (c : Class) → ∀ k ∈ c.hierarchy, scalars k ⊆ scalars c
  | ⟨own, none, interfaces⟩, k, hk => by
    rw [hierarchy, List.mem_singleton] at hk
    rw [hk]
    exact List.Subset.refl _
  | ⟨own, some parent, interfaces⟩, k, hk => by
    rw [hierarchy] at hk
    rcases List.mem_cons.1 hk with rfl | hk
    · exact List.Subset.refl _
    · have hparent := subset_of_mem_hierarchy parent k hk
      rw [scalars_eq ⟨own, some parent, interfaces⟩]
      exact fun s hs ↦ List.mem_append_right _ (List.mem_append_left _ (hparent hs))

theorem interfaceNumbers_eq (cs : List Class) : interfaceNumbers cs = scalars cs := by
  induction cs with
  | nil => rfl
  | cons c cs ih => exact congrArg (scalars c ++ ·) ih

theorem defaults_subset (c : Class) : scalars c.own.defaultObject ⊆ scalars c := by
  rw [scalars_eq]
  intro s hs
  have hown : scalars c.own = scalars c.own.properties ++ (scalars c.own.functions ++
    (scalars c.own.propertiesSize ++ (scalars c.own.numReplicatedProperties ++
      (scalars c.own.defaultObject ++ scalars c.own.timelines)))) := rfl
  simp only [hown, List.mem_append]
  tauto

end Class

/-- All values of a table are known. -/
def KnownTable (texts : DefaultTexts) (known : List Scalar) (table : List (String × Value)) :
    Prop :=
  ∀ e ∈ table, AllKnown texts known (scalars e.2)

namespace KnownTable

theorem setAll {table entries : List (String × Value)} (htable : KnownTable texts known table)
    (hentries : KnownTable texts known entries) :
    KnownTable texts known (Assoc.setAll table entries) :=
  Assoc.forall_setAll (P := fun v ↦ AllKnown texts known (scalars v)) htable hentries

/-- The values of a default object are known if its numbers are. -/
theorem of_defaults {defaults : Option DefaultObject} (h : scalars defaults ⊆ known) :
    KnownTable texts known ((defaults.map (·.values)).getD []) := by
  cases defaults with
  | none => exact List.forall_mem_nil _
  | some d => exact fun e he ↦ .of_subset fun s hs ↦ h (List.mem_flatMap.2 ⟨e, he, hs⟩)

theorem inheritedDefaults {c : Class} (h : scalars c ⊆ known) :
    KnownTable texts known c.inheritedDefaults.values := by
  refine List.foldlRecOn (motive := fun d : DefaultObject ↦ KnownTable texts known d.values)
    c.hierarchy.reverse _ (List.forall_mem_nil _) fun d hd k hk ↦ hd.setAll (.of_defaults ?_)
  have hsubset := c.subset_of_mem_hierarchy k (List.mem_reverse.1 hk)
  exact fun s hs ↦ h (hsubset (k.defaults_subset hs))

/-- The values of a default object are zero, inherited, read or from the last one. -/
theorem settledDefaults {c : Class}
    (hsuper : ∀ parent, c.superClass = some parent → scalars parent ⊆ known)
    {vars : List VariableDescription} (hvars : vars.map (fun v ↦ (v.ty, v.defaultValue)) ⊆ texts)
    {old : Option DefaultObject} (hold : scalars old ⊆ known) (isRegenerating : Bool) :
    KnownTable texts known (ClassState.settledDefaults c vars old isRegenerating).values := by
  have hnone : KnownTable texts known [] := List.forall_mem_nil _
  have hzeros : KnownTable texts known
      (c.own.properties.reverse.map fun p ↦ (p.name, Value.zero p.ty)) := by
    intro e he
    obtain ⟨p, -, rfl⟩ := List.mem_map.1 he
    exact .of_allFinite (Value.allFinite_zero p.ty)
  have hzero : KnownTable texts known (ClassState.zeroDefaults c).values := by
    refine (hnone.setAll hzeros).setAll ?_
    split
    · next parent hparent => exact .inheritedDefaults (hsuper parent hparent)
    · exact hnone
  have hkept : KnownTable texts known (ClassState.fittingValues c old) :=
    fun e he ↦ KnownTable.of_defaults hold e (List.mem_filter.1 he).1
  have hdeclared : KnownTable texts known (vars.filterMap (ClassState.declaredDefault? c)) := by
    intro e he
    obtain ⟨v, hmem, hv⟩ := List.mem_filterMap.1 he
    unfold ClassState.declaredDefault? at hv
    split at hv
    · cases hv
    · obtain ⟨value, hparse, rfl⟩ := Option.map_eq_some_iff.1 hv
      exact .of_parse (hvars (List.mem_map_of_mem hmem)) hparse
  unfold ClassState.settledDefaults
  cases isRegenerating with
  | true => exact (hzero.setAll hdeclared).setAll hkept
  | false => exact (hzero.setAll hkept).setAll hdeclared

end KnownTable

/-! ## The whole compile -/

theorem Class.sameKin_generateCode (c : Class) (contexts : List FunctionContext)
    (skeletonOnly : Bool) : c.SameKin (c.generateCode contexts skeletonOnly) :=
  List.foldlRecOn (motive := fun d : Class ↦ c.SameKin d) contexts _ (.refl _)
    fun _ hd _ _ ↦ hd.trans ⟨rfl, rfl, rfl⟩

namespace Blueprint

variable (b : Blueprint) (options : CompileOptions) (suffix : Bool)

/-- A compile keeps the name, the ancestors and the interfaces of the shaped class. -/
theorem sameKin_compile : (b.shaped suffix).cls.SameKin (b.compile options suffix).cls := by
  have hpass {pass : FunctionState → FunctionState}
      (h : ∀ s : FunctionState, s.cls.Develops (pass s).cls) (selected : FunctionContext → Bool)
      (c : Compilation) : c.cls.SameKin (c.runPass selected pass).cls :=
    (Compilation.develops_runPass h c).toSameKin
  have hfunctions (c : Compilation) (env : CompileEnv) :
      c.cls.SameKin (c.compileFunctions env).cls := by
    unfold Compilation.compileFunctions Compilation.precompile
    dsimp only
    rw [Compilation.cls_patchStubs]
    refine .trans ?_ (hpass FunctionState.develops_postcompile _ _)
    rw [← Compilation.cls_addFunctions env c]
    have hprepared := hpass (FunctionState.develops_precompile env)
    have hboth := (hprepared (·.isDelegateSignature) (c.addFunctions env)).trans
      (hprepared (!·.isDelegateSignature) _)
    split
    · exact hboth
    · exact hboth.trans (hpass (FunctionState.develops_compile env) _ _)
  rw [compile_eq_deliver, Compilation.cls_deliver]
  refine .trans ?_ (Class.sameKin_generateCode _ _ _)
  exact (hfunctions _ _).trans
    (Compilation.spares_finishClass _ (fun _ ↦ True) (b.environment options) _).toSameKin

/-! ### What was there before -/

theorem parentClass_settleNames (log : MessageLog) :
    (b.settleNames log).1.parentClass = b.parentClass :=
  settleNames_keeps (·.parentClass) (fun _ _ ↦ rfl) (fun _ _ _ ↦ rfl) (fun _ _ _ ↦ rfl)
    (fun _ _ ↦ rfl) (fun _ _ ↦ rfl) b log

theorem generatedClass_settleNames (log : MessageLog) :
    (b.settleNames log).1.generatedClass = b.generatedClass :=
  settleNames_keeps (·.generatedClass) (fun _ _ ↦ rfl) (fun _ _ _ ↦ rfl) (fun _ _ _ ↦ rfl)
    (fun _ _ ↦ rfl) (fun _ _ ↦ rfl) b log

theorem lengths_settleNames (log : MessageLog) :
    (b.settleNames log).1.timelines.map (·.length) = b.timelines.map (·.length) :=
  settleNames_keeps (fun b ↦ b.timelines.map (·.length)) (fun _ _ ↦ rfl) (fun _ _ _ ↦ rfl)
    (fun b i name ↦ Class.map_modify_of_key (fun t ↦ { t with name }) TimelineTemplate.length
      (fun _ ↦ rfl) b.timelines i)
    (fun _ _ ↦ rfl) (fun _ _ ↦ rfl) b log

/-- The texts of the default values of variables. -/
def declaredTexts : DefaultTexts := b.newVariables.map fun v ↦ (v.ty, v.defaultValue)

theorem declaredTexts_settleNames (log : MessageLog) :
    (b.settleNames log).1.declaredTexts = b.declaredTexts :=
  settleNames_keeps declaredTexts (fun _ _ ↦ rfl)
    (fun b i name ↦ Class.map_modify_of_key (fun v : VariableDescription ↦ { v with name })
      (fun v ↦ (v.ty, v.defaultValue)) (fun _ ↦ rfl) b.newVariables i)
    (fun _ _ _ ↦ rfl) (fun _ _ ↦ rfl) (fun _ _ ↦ rfl) b log

/-- The numbers of the parent, the interfaces, the timelines and the last class are among those
of the Blueprint. -/
theorem subset_scalars : scalars b.parentClass ⊆ scalars b ∧ scalars b.timelines ⊆ scalars b ∧
    scalars b.implementedInterfaces ⊆ scalars b ∧ scalars b.generatedClass ⊆ scalars b := by
  have hscalars : scalars b = scalars b.parentClass ++ (scalars b.timelines ++
    (scalars b.ubergraphPages ++ (scalars b.functionGraphs ++
      (scalars b.delegateSignatureGraphs ++ (scalars b.macroGraphs ++
        (scalars b.implementedInterfaces ++ (scalars b.generatedClass ++
          scalars b.intermediateGeneratedGraphs))))))) := rfl
  rw [hscalars]
  refine ⟨?_, ?_, ?_, ?_⟩ <;> intro s hs <;> simp [hs]

theorem allKnown_timelines :
    AllKnown texts (scalars b) (scalars (b.settleNames .empty).1.timelines) := by
  have hlengths (b : Blueprint) : scalars b.timelines = scalars (b.timelines.map (·.length)) :=
    (List.flatMap_map TimelineTemplate.length scalars b.timelines).symm
  rw [hlengths, b.lengths_settleNames, ← hlengths]
  exact .of_subset b.subset_scalars.2.1

theorem allKnown_interface {c : Class}
    (h : c ∈ (b.settleNames .empty).1.implementedInterfaces.map (·.interface)) :
    AllKnown texts (scalars b) (scalars c) := by
  rw [(b.keepsEvents_settleNames .empty).interfaces] at h
  obtain ⟨i, hi, rfl⟩ := List.mem_map.1 h
  refine .of_subset fun s hs ↦ b.subset_scalars.2.2.1 (List.mem_flatMap.2 ⟨i, hi, ?_⟩)
  exact List.mem_append_left _ hs

/-! ### The class -/

/-- The texts that a compile may read: those of variables and those of the literals that its
functions have. -/
def textsRead : DefaultTexts :=
  b.declaredTexts ++ (b.compile options suffix).contexts.flatMap (·.literalTexts)

theorem attachments_compile :
    (b.compile options suffix).cls.interfaces ⊆
        (b.settleNames .empty).1.implementedInterfaces.map (·.interface) ∧
      (b.compile options suffix).cls.own.timelines = (b.settleNames .empty).1.timelines := by
  obtain ⟨⟨b', log⟩, h⟩ : ∃ r, b.settleNames .empty = r := ⟨_, rfl⟩
  have hshaped := ClassState.attachments_shaped
    ⟨b'.blankClass.withSubObjects b'.carried, log⟩ b' suffix
  have hkin := b.sameKin_compile options suffix
  have hframe := Class.subObjects_of_frame (b.accounted_compile options suffix).frame
  rw [hkin.interfaces, h]
  rw [shaped_eq suffix h] at hframe ⊢
  exact ⟨hshaped.1, (congrArg SubObjects.timelines hframe).trans hshaped.2⟩

theorem allKnown_functions : AllKnown (b.textsRead options suffix) (scalars b)
    (scalars (b.compile options suffix).cls.own.functions) := by
  refine .of_list fun f hf ↦ ?_
  obtain ⟨ctx, hctx, -, hscript⟩ := (b.confined_compile options suffix).2 f hf
  have hliterals : ctx.literalTexts ⊆ b.textsRead options suffix := fun e he ↦
    List.mem_append_right _ (List.mem_flatMap.2 ⟨ctx, hctx, he⟩)
  refine AllKnown.append_iff.2 ⟨.of_floatless f.properties, ?_⟩
  refine AllKnown.append_iff.2 ⟨.of_floatless f.numParms, ?_⟩
  refine AllKnown.append_iff.2 ⟨.of_floatless f.parmsSize, ?_⟩
  refine AllKnown.append_iff.2 ⟨.of_floatless f.returnValueOffset, ?_⟩
  refine AllKnown.append_iff.2 ⟨.of_floatless f.frameSize, ?_⟩
  rw [hscript]
  exact FunctionContext.allKnown_script hliterals options.isSkeletonOnly

theorem allKnown_defaults : AllKnown (b.textsRead options suffix) (scalars b)
    (scalars (b.compile options suffix).cls.own.defaultObject) := by
  obtain ⟨⟨b', log⟩, h⟩ : ∃ r, b.settleNames .empty = r := ⟨_, rfl⟩
  have hparent := b.superClass_compile options suffix
  have hgenerated := b.generatedClass_settleNames .empty
  have hdeclared := b.declaredTexts_settleNames .empty
  have hdefaults := defaultObject_compile options suffix h
  have hcls := cls_compile options suffix h
  have hblueprint := (Compilation.blueprint_compileFunctions (b.environment options)
    (b.shaped suffix)).trans (b.blueprint_shaped suffix)
  have hvars : b.declaredTexts ⊆ b.textsRead options suffix := List.subset_append_left _ _
  rw [b.parentClass_settleNames] at hparent
  rw [h] at hgenerated hblueprint hdeclared
  rw [← hdeclared] at hvars
  dsimp only at hdefaults hcls hgenerated
  rw [hdefaults, hblueprint]
  generalize (b.shaped suffix).compileFunctions (b.environment options) = c at hcls ⊢
  have hsuper : c.linkedClass.superClass = some b.parentClass := by
    rw [← hparent, hcls, (Class.sameKin_generateCode _ _ _).superClass]
    rfl
  have hold : scalars b'.freshClass.2 ⊆ scalars b := by
    rw [freshClass_eq, hgenerated]
    refine List.Subset.trans ?_ b.subset_scalars.2.2.2
    cases b.generatedClass with
    | none => exact List.Subset.refl _
    | some old => exact old.defaults_subset
  refine .of_list (KnownTable.settledDefaults (fun parent hparent ↦ ?_) hvars hold _)
  rw [hsuper] at hparent
  obtain rfl := Option.some.inj hparent
  exact b.subset_scalars.1

theorem allKnown_cls : AllKnown (b.textsRead options suffix) (scalars b)
    (scalars (b.compile options suffix).cls) := by
  have hattached := b.attachments_compile options suffix
  have hsuper := b.superClass_compile options suffix
  have hfunctions := b.allKnown_functions options suffix
  have hdefaults := b.allKnown_defaults options suffix
  generalize b.textsRead options suffix = texts at *
  generalize (b.compile options suffix).cls = c at *
  rw [Class.scalars_eq, hsuper, b.parentClass_settleNames]
  refine AllKnown.append_iff.2 ⟨?_, AllKnown.append_iff.2 ⟨.of_subset b.subset_scalars.1, ?_⟩⟩
  · refine AllKnown.append_iff.2 ⟨.of_floatless c.own.properties, ?_⟩
    refine AllKnown.append_iff.2 ⟨hfunctions, ?_⟩
    refine AllKnown.append_iff.2 ⟨.of_floatless c.own.propertiesSize, ?_⟩
    refine AllKnown.append_iff.2 ⟨.of_floatless c.own.numReplicatedProperties, ?_⟩
    refine AllKnown.append_iff.2 ⟨hdefaults, ?_⟩
    rw [hattached.2]
    exact b.allKnown_timelines
  · rw [Class.interfaceNumbers_eq]
    exact .of_list fun i hi ↦ b.allKnown_interface (hattached.1 hi)

/-- Every number of the Blueprint that a compile leaves behind is finite, stood in the Blueprint
before or is read from one of the texts. -/
theorem allKnown_compile : AllKnown (b.textsRead options suffix) (scalars b)
    (scalars (b.compile options suffix).blueprint) := by
  obtain ⟨graphs, hblueprint⟩ := b.blueprint_compile options suffix
  have hcls := b.allKnown_cls options suffix
  generalize b.textsRead options suffix = texts at *
  have hgraphs (graphs : List Graph) : AllKnown texts (scalars b) (scalars graphs) :=
    .of_floatless graphs
  rw [hblueprint]
  generalize (b.compile options suffix).cls = cls at hcls ⊢
  refine AllKnown.append_iff.2 ⟨?_, AllKnown.append_iff.2 ⟨b.allKnown_timelines, ?_⟩⟩
  · rw [b.parentClass_settleNames]
    exact .of_subset b.subset_scalars.1
  · refine AllKnown.append_iff.2 ⟨hgraphs _, AllKnown.append_iff.2 ⟨hgraphs _, ?_⟩⟩
    refine AllKnown.append_iff.2 ⟨hgraphs _, AllKnown.append_iff.2 ⟨hgraphs _, ?_⟩⟩
    refine AllKnown.append_iff.2 ⟨.of_list fun i hi ↦ ?_, AllKnown.append_iff.2 ⟨hcls, hgraphs _⟩⟩
    exact AllKnown.append_iff.2 ⟨b.allKnown_interface (List.mem_map_of_mem hi), hgraphs _⟩

end Blueprint

end VisualScript

/-!
## Reading a compiled Blueprint back

A compiled Blueprint is written with its class.  A float that is not finite has no document, but
the texts of default values have names for such floats.  So a Blueprint comes back as long as none
of its default values is read as one.
-/

namespace VisualScript

open Numeric Scalar Text

namespace Blueprint

variable {limit : Nat}

/-- A value that is read from a text comes back from its document if its floats are finite, and so
does the Blueprint that a compile leaves behind.  Nothing else comes back.  If the floats of the
Blueprint were finite before, then one that is not was read from a text. -/
theorem reload?_compile :
    (∀ (ty : PinType) (text : String) (v : Value), Value.parse? ty text = some v →
      AllKept (scalars v) → (toJson v).nesting ≤ limit →
        reload? limit v = if AllFinite (scalars v) then some v else none) ∧
    ∀ (b : Blueprint) (options : CompileOptions) (suffix : Bool),
      let b' := (b.compile options suffix).blueprint
      AllKept (scalars b') → (toJson b').nesting ≤ limit →
        (reload? limit b' = if AllFinite (scalars b') then some b' else none) ∧
        (AllFinite (scalars b) → reload? limit b' = none →
          ∃ s ∈ scalars b', s.isFinite = false ∧ s.ReadFrom (b.textsRead options suffix)) := by
  refine ⟨fun ty text v _ ↦ reload?_eq, fun b options suffix hkept hnesting ↦ ?_⟩
  have hreload := reload?_eq hkept hnesting
  refine ⟨hreload, fun hbefore hnone ↦ ?_⟩
  have hinfinite : ¬AllFinite (scalars (b.compile options suffix).blueprint) := fun hall ↦ by
    rw [hreload, if_pos hall] at hnone
    cases hnone
  unfold AllFinite at hinfinite
  push Not at hinfinite
  obtain ⟨s, hs, hs'⟩ := hinfinite
  rcases b.allKnown_compile options suffix s hs with hfinite | hread | hold
  · exact absurd hfinite hs'
  · exact ⟨s, hs, Bool.not_eq_true _ ▸ hs', hread⟩
  · exact absurd (hbefore s hold) hs'

/-- A lamp whose range is read from a text. -/
def lamp (range : String) : Blueprint :=
  { Blueprint.new "Lamp" (Class.new "Actor" none) with
    newVariables := [{ VariableDescription.new "Range" .float with defaultValue := range }] }

theorem reload?_compile_lamp :
    let v := Value.float ⟨0x3fc00000⟩
    let b' := ((lamp "1.5").compile .full true).blueprint
    Value.parse? .float "1.5" = some v ∧ reload? Json.maxDepth v = some v ∧
      AllKept (scalars b') ∧ (toJson b').nesting ≤ Json.maxDepth ∧
      reload? Json.maxDepth b' = some b' := by
  intro v b'
  have hfloat : binary32? (trim "1.5") = some ⟨0x3fc00000⟩ := by decide +kernel
  have hparse : Value.parse? .float "1.5" = some v := congrArg (Option.map Value.float) hfloat
  have hv : AllKept (scalars v) ∧ AllFinite (scalars v) ∧ (toJson v).nesting ≤ Json.maxDepth := by
    decide +kernel
  have hb' : AllKept (scalars b') ∧ AllFinite (scalars b') ∧
      (toJson b').nesting ≤ Json.maxDepth := by
    decide +kernel
  obtain ⟨hvalue, hcompile⟩ := @reload?_compile Json.maxDepth
  have hreload := (hcompile (lamp "1.5") .full true hb'.1 hb'.2.2).1
  refine ⟨hparse, ?_, hb'.1, hb'.2.2, hreload.trans (if_pos hb'.2.1)⟩
  exact (hvalue .float "1.5" v hparse hv.1 hv.2.2).trans (if_pos hv.2.1)

/-- An infinite default value is read, but not what is written for it, and the Blueprint that has
it does not come back once it is compiled. -/
theorem not_reload?_compile :
    (¬∀ (ty : PinType) (text : String) (v : Value), Value.parse? ty text = some v →
      reload? Json.maxDepth v = some v) ∧
    ¬∀ (text : String) (b : Blueprint) (options : CompileOptions) (suffix : Bool),
      ofText? text = some b → (ofText? (b.compile options suffix).blueprint.text).isSome := by
  constructor
  · intro h
    let v := Value.float .infinity
    have hv : AllKept (scalars v) ∧ ¬AllFinite (scalars v) ∧
        (toJson v).nesting ≤ Json.maxDepth := by
      decide +kernel
    have hfloat : binary32? (trim "inf") = some .infinity := by decide +kernel
    have hreload := h .float "inf" v (congrArg (Option.map Value.float) hfloat)
    rw [reload?_eq hv.1 hv.2.2, if_neg hv.2.1] at hreload
    cases hreload
  · intro h
    have hlamp : AllKept (scalars (lamp "inf")) ∧ AllFinite (scalars (lamp "inf")) ∧
        (toJson (lamp "inf")).nesting ≤ Json.maxDepth := by
      decide +kernel
    let b' := ((lamp "inf").compile .full true).blueprint
    have hb' : AllKept (scalars b') ∧ ¬AllFinite (scalars b') ∧
        (toJson b').nesting ≤ Json.maxDepth := by
      decide +kernel
    have hread : ofText? (lamp "inf").text = some (lamp "inf") :=
      (ofText?_text _).trans ((reload?_eq hlamp.1 hlamp.2.2).trans (if_pos hlamp.2.1))
    have hreload := h _ (lamp "inf") .full true hread
    have hnone : ofText? b'.text = none :=
      (ofText?_text b').trans ((reload?_eq hb'.1 hb'.2.2).trans (if_neg hb'.2.1))
    rw [hnone] at hreload
    cases hreload

end Blueprint

end VisualScript
