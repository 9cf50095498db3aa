import VisualScript.Proofs.Compile.Layout
import VisualScript.Proofs.Compile.Recompiling

/-!
# Hidden categories

The categories that a class hides are joined to one text.  A compile takes that of the parent
apart at its spaces, adds what the Blueprint hides, and joins all of it again.  Along a chain of
classes what was hidden once stays hidden, as long as it is a word.
-/

namespace VisualScript

/-! ## Words -/

namespace Text

variable {sep : Char}

theorem splitChars_append_cons (s rest : List Char) :
    splitChars sep (s ++ sep :: rest) = splitChars sep s ++ splitChars sep rest := by
  induction s with
  | nil => simp [splitChars]
  | cons c s ih =>
    rw [List.cons_append, splitChars, splitChars, ih]
    split
    · rfl
    · cases hs : splitChars sep s with
      | nil => exact absurd hs (splitChars_ne_nil sep s)
      | cons piece pieces => rfl

theorem not_mem_of_mem_splitChars {s piece : List Char} (h : piece ∈ splitChars sep s) :
    sep ∉ piece := by
  induction s generalizing piece with
  | nil =>
    obtain rfl := List.mem_singleton.1 h
    exact List.not_mem_nil
  | cons c s ih =>
    rw [splitChars] at h
    split at h
    · rcases List.mem_cons.1 h with rfl | h
      · exact List.not_mem_nil
      · exact ih h
    · next hc =>
      cases hs : splitChars sep s with
      | nil => exact absurd hs (splitChars_ne_nil sep s)
      | cons first pieces =>
        rw [hs] at h ih
        rcases List.mem_cons.1 h with rfl | h
        · exact List.mem_cons.not.2 (not_or.2 ⟨Ne.symm hc, ih List.mem_cons_self⟩)
        · exact ih (List.mem_cons_of_mem _ h)

end Text

namespace ClassState

open Text

/-- Something without blanks. -/
def IsWord (s : String) : Prop := s ≠ "" ∧ ' ' ∉ s.toList

theorem mem_splitCategories {word text : String} :
    word ∈ splitCategories text ↔ word.toList ∈ splitChars ' ' text.toList ∧ word ≠ "" := by
  simp only [splitCategories, Text.split, List.mem_filter, List.mem_map, Bool.not_eq_true',
    String.isEmpty_eq_false_iff]
  refine and_congr_left fun _ ↦ ⟨?_, fun h ↦ ⟨_, h, String.ofList_toList⟩⟩
  rintro ⟨piece, hpiece, rfl⟩
  rwa [String.toList_ofList]

theorem isWord_of_mem_splitCategories {word text : String} (h : word ∈ splitCategories text) :
    IsWord word := by
  obtain ⟨hpiece, hne⟩ := mem_splitCategories.1 h
  exact ⟨hne, not_mem_of_mem_splitChars hpiece⟩

/-- A word is its only word. -/
theorem mem_splitCategories_of_isWord {word text : String} (h : IsWord text) :
    word ∈ splitCategories text ↔ word = text := by
  rw [mem_splitCategories, splitChars_of_not_mem h.2, List.mem_singleton, String.toList_inj]
  exact and_iff_left_of_imp fun heq ↦ heq ▸ h.1

/-- Texts that are joined have the words of all. -/
theorem mem_splitCategories_intercalate {word : String} (texts : List String) :
    word ∈ splitCategories (" ".intercalate texts) ↔ ∃ t ∈ texts, word ∈ splitCategories t := by
  induction texts with
  | nil => simp [mem_splitCategories, splitChars]
  | cons t texts ih =>
    cases texts with
    | nil => simp
    | cons u texts =>
      have htext : (" ".intercalate (t :: u :: texts)).toList =
          t.toList ++ ' ' :: (" ".intercalate (u :: texts)).toList := by
        rw [String.intercalate_cons_cons]
        simp
      rw [List.exists_mem_cons_iff, ← ih, mem_splitCategories, htext, splitChars_append_cons,
        List.mem_append, or_and_right, ← mem_splitCategories, ← mem_splitCategories]

/-- The categories that metadata hide. -/
def hiddenIn (m : Metadata) : List String :=
  splitCategories ((m.get? MetadataKey.hideCategories).getD "")

theorem mem_foldl_categories {c : String} (categories all : List String) :
    c ∈ categories.foldl (fun all c ↦ if c ∈ all then all else all ++ [c]) all ↔
      c ∈ all ∨ c ∈ categories := by
  induction categories generalizing all with
  | nil => simp
  | cons d categories ih =>
    rw [List.foldl_cons, ih]
    split
    · next hd =>
      rw [List.mem_cons]
      exact ⟨.imp_right .inr, by rintro (h | rfl | h) <;> simp_all⟩
    · rw [List.mem_append, List.mem_singleton, List.mem_cons, or_assoc]

/-- Hiding categories adds their words to those that are hidden. -/
theorem mem_hiddenIn_hideCategories {word : String} (m : Metadata) (categories : List String) :
    word ∈ hiddenIn (hideCategories m categories) ↔
      word ∈ hiddenIn m ∨ ∃ c ∈ categories, word ∈ splitCategories c := by
  unfold hideCategories
  split
  · next hnone => simp [List.isEmpty_iff.1 hnone]
  · have hwords : (∃ c ∈ hiddenIn m, word ∈ splitCategories c) ↔ word ∈ hiddenIn m := by
      refine ⟨fun ⟨c, hc, hword⟩ ↦ ?_, fun h ↦ ⟨word, h, ?_⟩⟩
      · rwa [(mem_splitCategories_of_isWord (isWord_of_mem_splitCategories hc)).1 hword]
      · exact (mem_splitCategories_of_isWord (isWord_of_mem_splitCategories h)).2 rfl
    rw [hiddenIn, Metadata.get?_insert, if_pos rfl, Option.getD_some,
      mem_splitCategories_intercalate, ← hwords]
    simp only [mem_foldl_categories, or_and_right, exists_or, hiddenIn]

/-! ## Metadata of the class -/

section Shaping

variable (s : ClassState) (b : Blueprint) (suffix : Bool)

theorem metadata_addProperty (what name : String) (ty : PinType) (flags : PropertyFlags) :
    (s.addProperty what name ty flags).2.cls.own.metadata = s.cls.own.metadata := by
  unfold addProperty
  split
  · next h =>
    obtain ⟨p, -, hlink⟩ := exists_madeWith_of_addVariable h
    obtain ⟨-, rfl⟩ := Class.linkProperty_eq_ok hlink
    rfl
  · rfl

theorem metadata_addVariable (v : VariableDescription) :
    (s.addVariable v).cls.own.metadata = s.cls.own.metadata := by
  have hdescribe (s : ClassState) : (s.describeVariable v).cls.own.metadata = s.cls.own.metadata := by
    unfold describeVariable
    dsimp only
    split
    · rfl
    · split
      · split <;> rfl
      · rfl
  unfold addVariable
  dsimp only
  generalize (if v.repNotifyFunc.isSome then _ else v.flags) = flags
  have hadd := s.metadata_addProperty s!"variable {v.name}" v.name v.ty flags
  generalize s.addProperty s!"variable {v.name}" v.name v.ty flags = r at hadd
  obtain ⟨_ | _, s'⟩ := r
  · exact hadd
  · exact (hdescribe s').trans hadd

theorem metadata_addComponent (c : ComponentNode) :
    (addComponent suffix s c).cls.own.metadata = s.cls.own.metadata := by
  unfold addComponent
  dsimp only
  generalize PropertyFlags.blueprintVisible ||| PropertyFlags.blueprintReadOnly = flags
  have hadd := s.metadata_addProperty s!"component {c.variableName}" c.variableName
    (.object c.componentClass) flags
  generalize s.addProperty s!"component {c.variableName}" c.variableName
    (.object c.componentClass) flags = r at hadd
  obtain ⟨_ | _, s'⟩ := r
  · exact hadd
  · exact hadd

theorem metadata_addMembers : (s.addMembers b suffix).cls.own.metadata = s.cls.own.metadata := by
  have hfold {α : Type} {f : ClassState → α → ClassState}
      (hf : ∀ s a, (f s a).cls.own.metadata = s.cls.own.metadata) (l : List α) (s : ClassState) :
      (l.foldl f s).cls.own.metadata = s.cls.own.metadata :=
    List.foldlRecOn (motive := fun s' : ClassState ↦ s'.cls.own.metadata = s.cls.own.metadata) l f rfl
      fun s' hs a _ ↦ (hf s' a).trans hs
  have htimeline (s : ClassState) (t : TimelineTemplate) :
      (s.addTimeline t).cls.own.metadata = s.cls.own.metadata := by
    refine hfold (fun s e ↦ ?_) (timelineMembers t) s
    exact s.metadata_addProperty _ e.1 e.2 _
  have hvariables : (s.withVariables b).cls.own.metadata = s.cls.own.metadata :=
    (hfold htimeline b.timelines _).trans (hfold metadata_addVariable b.newVariables.reverse s)
  rw [addMembers_eq]
  cases b.constructionScript with
  | none => exact hvariables
  | some script =>
    exact (hfold (metadata_addComponent · suffix) script.components _).trans hvariables

/-- Metadata of the parent are taken over where there are none of their name. -/
theorem get?_inherit (m : Metadata) (entries : List (String × String)) (key : String) :
    (entries.foldl (fun m e ↦ if m.contains e.1 then m else m.insert e.1 e.2) m).get? key =
      (m.get? key).or (entries.lookup key) := by
  induction entries generalizing m with
  | nil => simp
  | cons e entries ih =>
    rw [List.foldl_cons, ih, Assoc.lookup_cons_ite]
    by_cases hold : m.contains e.1 = true
    · rw [if_pos hold]
      by_cases hkey : key = e.1
      · obtain ⟨value, hvalue⟩ := Option.isSome_iff_exists.1 hold
        rw [if_pos hkey, hkey, hvalue, Option.some_or, Option.some_or]
      · rw [if_neg hkey]
    · have hnone : m.get? e.1 = none := by simpa [Metadata.contains] using hold
      rw [if_neg hold, Metadata.get?_insert]
      by_cases hkey : key = e.1
      · rw [if_pos hkey, if_pos hkey, hkey, hnone, Option.some_or, Option.none_or]
      · rw [if_neg hkey, if_neg hkey]

/-- A class without metadata hides what its parent hides and what the Blueprint hides. -/
theorem mem_hiddenIn_settleFlags {word : String} (hnone : s.cls.own.metadata = .empty) :
    word ∈ hiddenIn (s.settleFlags b).cls.own.metadata ↔
      word ∈ hiddenIn b.parentClass.own.metadata ∨ ∃ c ∈ b.hideCategories, word ∈ splitCategories c := by
  have hinterfaces (s : ClassState) (l : List Class) :
      (l.foldl (addInterface b) s).cls.own.metadata = s.cls.own.metadata := by
    refine List.foldlRecOn (motive := fun s' : ClassState ↦
      s'.cls.own.metadata = s.cls.own.metadata) l _ rfl fun s' hs interface _ ↦ ?_
    rw [← hs]
    unfold addInterface
    split
    · rfl
    · split <;> rfl
  unfold settleFlags
  dsimp only
  rw [mem_hiddenIn_hideCategories, hinterfaces, hnone, hiddenIn, get?_inherit]
  rfl

end Shaping

end ClassState

/-! ## Passes over the class -/

section Passes

theorem FunctionState.metadata_precompile (env : CompileEnv) (s : FunctionState) :
    (s.precompile env).cls.own.metadata = s.cls.own.metadata := by
  rcases cls_precompile_cases env s with hcls | ⟨f, t, -, -, hadd, hfind, hcls⟩
  · rw [hcls]
  · obtain ⟨-, hadded⟩ := Class.addFunction_eq_ok hadd
    have hlinked : ((t.withFrame f).classProperties t.ctx.eventGraphLocals).scope.own.metadata =
        t.cls.own.metadata :=
      PropertyState.scope_addTerms (P := fun c : Class ↦ c.own.metadata = t.cls.own.metadata)
        (fun hlink hc ↦ by
          obtain ⟨-, rfl⟩ := Class.linkProperty_eq_ok hlink
          exact hc) rfl _ _
    rw [hcls, createProperties_eq hfind]
    exact hlinked.trans (by rw [hadded])

theorem FunctionState.metadata_postcompile (s : FunctionState) :
    s.postcompile.cls.own.metadata = s.cls.own.metadata := by
  obtain ⟨ctx, -, -, hpostcompile⟩ := s.exists_postcompile_eq
  rw [hpostcompile]
  unfold finish
  dsimp only
  split <;> rfl

theorem Compilation.metadata_runPass {pass : FunctionState → FunctionState}
    (h : ∀ s : FunctionState, (pass s).cls.own.metadata = s.cls.own.metadata)
    (selected : FunctionContext → Bool) (c : Compilation) :
    (c.runPass selected pass).cls.own.metadata = c.cls.own.metadata :=
  runPass_induction (I := fun _ _ cls ↦ cls.own.metadata = c.cls.own.metadata)
    (fun _ hcls ↦ hcls) (fun {_ _ s} _ hcls ↦ (h s).trans hcls) rfl

theorem Compilation.metadata_linkedClass (c : Compilation) :
    c.linkedClass.own.metadata = c.cls.own.metadata := by
  have hbound : (c.contexts.foldl bindDelegate c).cls.own.metadata = c.cls.own.metadata := by
    refine List.foldlRecOn (motive := fun c' : Compilation ↦
      c'.cls.own.metadata = c.cls.own.metadata) c.contexts bindDelegate rfl fun c' hc ctx _ ↦ ?_
    rw [← hc]
    unfold bindDelegate
    split
    · rfl
    · split <;> rfl
  have hchecked (s : ClassState) : s.checkRepNotifies.cls.own.metadata = s.cls.own.metadata :=
    List.foldlRecOn (motive := fun s' : ClassState ↦ s'.cls.own.metadata = s.cls.own.metadata) _ _ rfl
      fun _ hs _ _ ↦ hs
  exact (hchecked _).trans hbound

theorem Class.metadata_generateCode (c : Class) (contexts : List FunctionContext)
    (skeletonOnly : Bool) : (c.generateCode contexts skeletonOnly).own.metadata = c.own.metadata :=
  List.foldlRecOn (motive := fun d : Class ↦ d.own.metadata = c.own.metadata) contexts _ rfl
    fun _ hd _ _ ↦ hd

/-- Nothing changes the metadata of a class after it was shaped. -/
theorem Blueprint.metadata_compile (b : Blueprint) (options : CompileOptions) (suffix : Bool) :
    (b.compile options suffix).cls.own.metadata = (b.shaped suffix).cls.own.metadata := by
  have hprecompile := Compilation.metadata_runPass
    (FunctionState.metadata_precompile (b.environment options))
  have hcompiled : ((b.shaped suffix).compileFunctions (b.environment options)).cls.own.metadata =
      (b.shaped suffix).cls.own.metadata := by
    rw [Compilation.cls_compileFunctions,
      Compilation.metadata_runPass FunctionState.metadata_postcompile, Compilation.precompile,
      hprecompile, hprecompile, Compilation.cls_addFunctions]
  obtain ⟨⟨b', log⟩, h⟩ : ∃ r, b.settleNames .empty = r := ⟨_, rfl⟩
  rw [cls_compile options suffix h, ← hcompiled]
  generalize (b.shaped suffix).compileFunctions (b.environment options) = c
  exact (Class.metadata_generateCode _ _ _).trans c.metadata_linkedClass

end Passes

/-! ## Chains of classes -/

/-- The categories that a class hides. -/
def Class.hiddenCategories (c : Class) : List String := ClassState.hiddenIn c.own.metadata

open ClassState

/-- A compiled class hides what its parent hides and the words of what the Blueprint hides. -/
theorem Blueprint.mem_hiddenCategories_compile (b : Blueprint) (options : CompileOptions)
    (suffix : Bool) {word : String} :
    word ∈ (b.compile options suffix).cls.hiddenCategories ↔
      word ∈ b.parentClass.hiddenCategories ∨ ∃ c ∈ b.hideCategories, word ∈ splitCategories c := by
  have hparent := b.parentClass_settleNames .empty
  have hhidden : (b.settleNames .empty).1.hideCategories = b.hideCategories :=
    settleNames_keeps (·.hideCategories) (fun _ _ ↦ rfl) (fun _ _ _ ↦ rfl) (fun _ _ _ ↦ rfl)
      (fun _ _ ↦ rfl) (fun _ _ ↦ rfl) b .empty
  obtain ⟨⟨b', log⟩, h⟩ : ∃ r, b.settleNames .empty = r := ⟨_, rfl⟩
  rw [h] at hparent hhidden
  rw [Class.hiddenCategories, b.metadata_compile, shaped_eq suffix h]
  refine (mem_hiddenIn_settleFlags _ b' (metadata_addMembers _ b' suffix)).trans ?_
  rw [hparent, hhidden, Class.hiddenCategories]

/-- Blueprints, the last one first, and the class of the last.  Each extends the class of the one
before it, and the first a class that says nothing of categories. -/
inductive CompiledChain : List Blueprint → Class → Prop
  | first {b : Blueprint} (options : CompileOptions) (suffix : Bool)
      (hnone : b.parentClass.own.metadata.get? MetadataKey.hideCategories = none) :
      CompiledChain [b] (b.compile options suffix).cls
  | next {bs : List Blueprint} {c : Class} (h : CompiledChain bs c) {b : Blueprint}
      (hparent : b.parentClass = c) (options : CompileOptions) (suffix : Bool) :
      CompiledChain (b :: bs) (b.compile options suffix).cls

namespace CompiledChain

variable {bs : List Blueprint} {c : Class} {word : String}

/-- The last class of a chain hides the words of all that is hidden along it. -/
theorem mem_hiddenCategories_iff (h : CompiledChain bs c) : word ∈ c.hiddenCategories ↔
    ∃ b ∈ bs, ∃ text ∈ b.hideCategories, word ∈ splitCategories text := by
  induction h with
  | @first b options suffix hnone =>
    have hparent : word ∉ b.parentClass.hiddenCategories := by
      simp [Class.hiddenCategories, hiddenIn, hnone, mem_splitCategories, Text.splitChars]
    rw [b.mem_hiddenCategories_compile, or_iff_right hparent, List.exists_mem_cons_iff]
    simp
  | @next bs c _ b hparent options suffix ih =>
    rw [b.mem_hiddenCategories_compile, hparent, ih, List.exists_mem_cons_iff, or_comm]

/-- The last class of a chain hides just the categories that are declared along it if and only if
each of them is a word: joined texts are not quoted, so that any other category is lost. -/
theorem hides_declared_iff (h : CompiledChain bs c) :
    (∀ category, category ∈ c.hiddenCategories ↔ ∃ b ∈ bs, category ∈ b.hideCategories) ↔
      ∀ b ∈ bs, ∀ text ∈ b.hideCategories, IsWord text := by
  constructor
  · intro hdeclared b hb text htext
    obtain ⟨_, _, _, _, hword⟩ :=
      h.mem_hiddenCategories_iff.1 ((hdeclared text).2 ⟨b, hb, htext⟩)
    exact isWord_of_mem_splitCategories hword
  · intro hall category
    rw [h.mem_hiddenCategories_iff]
    refine exists_congr fun b ↦ and_congr_right fun hb ↦ ⟨?_, fun hword ↦ ⟨category, hword, ?_⟩⟩
    · rintro ⟨text, htext, hword⟩
      rwa [(mem_splitCategories_of_isWord (hall b hb text htext)).1 hword]
    · exact (mem_splitCategories_of_isWord (hall b hb category hword)).2 rfl

/-- A Blueprint that only hides categories. -/
def concealing (categories : List String) (parent : Class) : Blueprint :=
  { Blueprint.new "Props" parent with hideCategories := categories }

/-- The class of a Blueprint that hides categories under a class that hides some. -/
def concealed (base categories : List String) : Class :=
  ((concealing categories ((concealing base (.new "Actor" none)).compile .full false).cls).compile
    .full false).cls

theorem compiledChain_concealed (base categories : List String) :
    CompiledChain [concealing categories ((concealing base (.new "Actor" none)).compile .full false).cls,
      concealing base (.new "Actor" none)] (concealed base categories) := by
  have hbase := CompiledChain.first (b := concealing base (.new "Actor" none)) .full false rfl
  generalize hparent : ((concealing base (.new "Actor" none)).compile .full false).cls = c at hbase
  rw [concealed, hparent]
  exact .next hbase rfl .full false

theorem hides_declared_iff_concealed :
    (∃ bs, CompiledChain bs (concealed ["Audio", "Physics"] ["Input", "Audio"])) ∧
      (∀ text ∈ ["Input", "Audio", "Audio", "Physics"], IsWord text) ∧
      ∀ category, category ∈ (concealed ["Audio", "Physics"] ["Input", "Audio"]).hiddenCategories ↔
        category ∈ ["Input", "Audio"] ∨ category ∈ ["Audio", "Physics"] := by
  have hwords : ∀ text ∈ ["Input", "Audio", "Audio", "Physics"], IsWord text := by
    unfold IsWord
    decide
  have hchain := compiledChain_concealed ["Audio", "Physics"] ["Input", "Audio"]
  have hdeclared := hchain.hides_declared_iff.2 (by simpa [concealing, and_assoc] using hwords)
  refine ⟨⟨_, hchain⟩, hwords, fun category ↦ (hdeclared category).trans ?_⟩
  simp only [List.exists_mem_cons_iff, List.not_mem_nil, false_and, exists_false, concealing,
    or_false]

/-- A category of two words is taken apart by the next compile. -/
theorem not_hides_declared : ¬∀ (bs : List Blueprint) (c : Class), CompiledChain bs c →
    ∀ category, category ∈ c.hiddenCategories ↔ ∃ b ∈ bs, category ∈ b.hideCategories := by
  intro h
  have hchain := compiledChain_concealed ["Static Mesh"] ["Static Mesh"]
  have hhidden : "Static" ∈ (concealed ["Static Mesh"] ["Static Mesh"]).hiddenCategories := by
    decide +kernel
  have hdeclared := (h _ _ hchain "Static").1 hhidden
  simp [concealing] at hdeclared

/-- It is not found among its own words, so each class of a chain joins it once more. -/
example : (concealed ["Static Mesh"] ["Static Mesh"]).own.metadata.get?
    MetadataKey.hideCategories = some "Static Mesh Static Mesh" := by
  decide +kernel

end CompiledChain

end VisualScript
