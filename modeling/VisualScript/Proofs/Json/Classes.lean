import VisualScript.Blueprint
import VisualScript.Class.Basic
import VisualScript.Proofs.Json.Graphs

/-!
# Classes in documents

A class holds floats in its default object, in the constants of its scripts and in the lengths of
its timelines.
-/

namespace VisualScript

open Json

attribute [local simp] Json.field Json.fieldOr Json.optional List.lookup_cons

/-! ## Values -/

namespace Value

mutual

/-- The floats of a value. -/
def floats : Value → List Scalar
  | float x => scalars x
  | vector x y z => scalars x ++ (scalars y ++ scalars z)
  | linearColor r g b a => scalars r ++ (scalars g ++ (scalars b ++ scalars a))
  | array items => itemFloats items
  | _ => []

def itemFloats : List Value → List Scalar
  | [] => []
  | v :: vs => v.floats ++ itemFloats vs

end

instance : HasScalars Value := ⟨floats⟩

instance : NonNull Value := ⟨fun v ↦ by cases v <;> exact nofun⟩

theorem ofDocument?_tagged {tag : String} (h : tag ≠ "Array") (payload : Json) :
    ofDocument? (Json.tagged tag payload).reread = ofPayload? tag payload.reread := by
  change (if tag = "Array" then _ else _) = _
  rw [if_neg h]

theorem ofDocument?_of_plain {α : Type} [JsonCodec α] [Plain α] {tag : String} {f : α → Value}
    (htag : tag ≠ "Array") (hpayload : ∀ j, ofPayload? tag j = (ofJson? j).map f) (a : α) :
    ofDocument? (Json.tagged tag (toJson a)).reread = some (f a) := by
  rw [ofDocument?_tagged htag, hpayload, Plain.ofJson?_reread, Option.map_some]

/-- A value that is no array is read back. -/
theorem ofDocument?_reread {v : Value} (hshape : v.shape ≠ .array)
    (h : Scalar.AllKept v.floats) :
    ofDocument? v.document.reread = if Scalar.AllFinite v.floats then some v else none := by
  cases v with
  | float x =>
    rw [floats] at h ⊢
    exact (ofDocument?_tagged (by decide) (toJson x)).trans
      ((congrArg (Option.map float) (Rereads.ofJson?_reread h)).trans (map_kept _ x float))
  | vector x y z =>
    rw [floats] at h ⊢
    simp only [Scalar.allKept_append] at h
    rw [document, ofDocument?_tagged (by decide)]
    simp only [reread, rereadItems, ofPayload?, Rereads.ofJson?_reread, h]
    simp
  | linearColor r g b a =>
    rw [floats] at h ⊢
    simp only [Scalar.allKept_append] at h
    rw [document, ofDocument?_tagged (by decide)]
    simp only [reread, rereadItems, ofPayload?, Rereads.ofJson?_reread, h]
    simp
  | array items => exact absurd rfl hshape
  | nothing => exact (if_pos Scalar.allFinite_nil).symm
  | _ =>
    refine .trans ?_ (if_pos Scalar.allFinite_nil).symm
    exact ofDocument?_of_plain (by decide) (fun _ ↦ rfl) _

theorem ofDocuments?_cons {v : Value} {vs : List Value} {p q : Prop} [Decidable p] [Decidable q]
    (hv : ofDocument? v.document.reread = if p then some v else none)
    (hvs : ofDocuments? (rereadItems (documents vs)) = if q then some vs else none) :
    ofDocuments? (rereadItems (documents (v :: vs))) = if p ∧ q then some (v :: vs) else none := by
  rw [documents, rereadItems, ofDocuments?, hv, hvs]
  simp

mutual

/-- Every value is read back, if its floats are. -/
theorem rereads_document : (v : Value) → Scalar.AllKept v.floats →
    ofDocument? v.document.reread = if Scalar.AllFinite v.floats then some v else none
  | array items, h => by
    have hitems := rereads_documents items h
    rw [floats]
    change Option.map array (ofDocuments? (rereadItems (documents items))) = _
    rw [hitems, map_kept]
  | nothing, h | bool _, h | byte _, h | int _, h | float _, h | name _, h | string _, h
  | text _, h | vector _ _ _, h | linearColor _ _ _ _, h | struct _, h | object _, h =>
    ofDocument?_reread nofun h

theorem rereads_documents : (vs : List Value) → Scalar.AllKept (itemFloats vs) →
    ofDocuments? (rereadItems (documents vs)) =
      if Scalar.AllFinite (itemFloats vs) then some vs else none
  | [], _ => (if_pos Scalar.allFinite_nil).symm
  | v :: vs, h => by
    rw [itemFloats, Scalar.allKept_append] at h
    simp only [itemFloats, Scalar.allFinite_append]
    exact ofDocuments?_cons (rereads_document v h.1) (rereads_documents vs h.2)

end

instance : Rereads Value := ⟨fun h ↦ rereads_document _ h⟩

end Value

/-! ## Scripts -/

namespace Operand

instance : HasScalars Operand where
  scalars
    | literal value => scalars value
    | _ => []

instance : NonNull Operand := ⟨fun o ↦ by cases o <;> exact nofun⟩

instance : Rereads Operand where
  ofJson?_reread {o} h := by
    cases o with
    | frame name => exact (if_pos Scalar.allFinite_nil).symm
    | inst name => exact (if_pos Scalar.allFinite_nil).symm
    | literal value =>
      have hvalue := Rereads.ofJson?_reread (a := value) h
      exact (congrArg (Option.map literal) hvalue).trans (map_kept _ value literal)

end Operand

namespace ScriptOp

instance : HasScalars ScriptOp where
  scalars
    | tracepoint node => scalars node
    | callFunction _ context args result => scalars context ++ (scalars args ++ scalars result)
    | assign dest src => scalars dest ++ scalars src
    | setArray array elements => scalars array ++ scalars elements
    | jump target => scalars target
    | jumpIfNot condition target => scalars condition ++ scalars target
    | computedJump target => scalars target
    | _ => []

instance : NonNull ScriptOp := ⟨fun op ↦ by cases op <;> exact nofun⟩

instance : Rereads ScriptOp where
  ofJson?_reread {op} h := by
    cases op with
    | comment text => exact (if_pos Scalar.allFinite_nil).symm
    | endOfThread => exact (if_pos Scalar.allFinite_nil).symm
    | ret => exact (if_pos Scalar.allFinite_nil).symm
    | tracepoint node =>
      have hnode := Rereads.ofJson?_reread (a := node) h
      exact (congrArg (Option.map tracepoint) hnode).trans (map_kept _ node tracepoint)
    | jump target =>
      have htarget := Rereads.ofJson?_reread (a := target) h
      exact (congrArg (Option.map jump) htarget).trans (map_kept _ target jump)
    | computedJump target =>
      have htarget := Rereads.ofJson?_reread (a := target) h
      exact (congrArg (Option.map computedJump) htarget).trans (map_kept _ target computedJump)
    | callFunction function context args result =>
      have hscalars : scalars (callFunction function context args result) =
          scalars context ++ (scalars args ++ scalars result) := rfl
      simp only [hscalars, Scalar.allKept_append] at h
      change (record? _ (Json.obj _).reread).bind _ = _
      rw [record?_reread (by rfl) (by decide)]
      simp [-Option.bind_eq_bind, hscalars, Rereads.ofJson?_reread, h]
    | assign dest src =>
      have hscalars : scalars (assign dest src) = scalars dest ++ scalars src := rfl
      simp only [hscalars, Scalar.allKept_append] at h
      change (record? _ (Json.obj _).reread).bind _ = _
      rw [record?_reread (by rfl) (by decide)]
      simp [-Option.bind_eq_bind, hscalars, Rereads.ofJson?_reread, h]
    | setArray array elements =>
      have hscalars : scalars (setArray array elements) = scalars array ++ scalars elements := rfl
      simp only [hscalars, Scalar.allKept_append] at h
      change (record? _ (Json.obj _).reread).bind _ = _
      rw [record?_reread (by rfl) (by decide)]
      simp [-Option.bind_eq_bind, hscalars, Rereads.ofJson?_reread, h]
    | jumpIfNot condition target =>
      have hscalars :
          scalars (jumpIfNot condition target) = scalars condition ++ scalars target := rfl
      simp only [hscalars, Scalar.allKept_append] at h
      change (record? _ (Json.obj _).reread).bind _ = _
      rw [record?_reread (by rfl) (by decide)]
      simp [-Option.bind_eq_bind, hscalars, Rereads.ofJson?_reread, h]

end ScriptOp

/-! ## Functions -/

instance : HasScalars Property := ⟨fun p ↦ scalars p.offset ++ scalars p.size⟩

instance : NonNull Property := ⟨fun _ ↦ nofun⟩

instance : Rereads Property where
  ofJson?_reread {p} h := by
    have hscalars : scalars p = scalars p.offset ++ scalars p.size := rfl
    rw [hscalars] at h
    unfold toJson ofJson? Property.instJsonCodec
    dsimp only
    rw [record?_reread (by rfl) (by decide)]
    simp only [Scalar.allKept_append] at h
    simp [-Option.bind_eq_bind, hscalars, Rereads.ofJson?_reread, h]

instance : HasScalars Function where
  scalars f := scalars f.properties ++ (scalars f.numParms ++ (scalars f.parmsSize ++
    (scalars f.returnValueOffset ++ (scalars f.frameSize ++ scalars f.script))))

instance : Rereads Function where
  ofJson?_reread {f} h := by
    have hscalars : scalars f = scalars f.properties ++ (scalars f.numParms ++
      (scalars f.parmsSize ++ (scalars f.returnValueOffset ++
        (scalars f.frameSize ++ scalars f.script)))) := rfl
    rw [hscalars] at h
    unfold toJson ofJson? Function.instJsonCodec
    dsimp only
    rw [record?_reread (by rfl) (by decide)]
    simp only [Scalar.allKept_append] at h
    simp [-Option.bind_eq_bind, hscalars, Rereads.ofJson?_reread, h]

/-! ## Timelines and components -/

instance : HasScalars TimelineTemplate := ⟨fun t ↦ scalars t.length⟩

instance : Rereads TimelineTemplate where
  ofJson?_reread {t} h := by
    have hscalars : scalars t = scalars t.length := rfl
    rw [hscalars] at h
    unfold toJson ofJson? TimelineTemplate.instJsonCodec
    dsimp only
    rw [record?_reread (by rfl) (by decide)]
    simp [-Option.bind_eq_bind, hscalars, Rereads.ofJson?_reread h]

namespace ComponentNode

mutual

theorem ofDocument?_reread : (c : ComponentNode) → ofDocument? c.document.reread = some c
  | ⟨name, componentClass, children⟩ => by
    have hchildren := ofDocuments?_reread children
    rw [document, reread, ofDocument?, ← reread, record?_reread (by rfl) (by decide)]
    simp [-Option.bind_eq_bind, rereadMembers, reread, childrenOf?, itemsOfDocument?, hchildren]

theorem ofDocuments?_reread : (cs : List ComponentNode) →
    ofDocuments? (rereadItems (documents cs)) = some cs
  | [] => rfl
  | c :: cs => by
    rw [documents, rereadItems, ofDocuments?, ofDocument?_reread c, ofDocuments?_reread cs]
    rfl

end

instance : Plain ComponentNode := ⟨ofDocument?_reread⟩

end ComponentNode

instance : NonNull ConstructionScript := ⟨fun _ ↦ nofun⟩

instance : Plain ConstructionScript where
  ofJson?_reread s := by
    unfold toJson ofJson? ConstructionScript.instJsonCodec
    dsimp only
    rw [record?_reread (by rfl) (by decide)]
    simp [-Option.bind_eq_bind]

instance : Plain ComponentTemplate where
  ofJson?_reread t := by
    unfold toJson ofJson? instJsonCodecComponentTemplate
    dsimp only
    rw [record?_reread (by rfl) (by decide)]
    simp [-Option.bind_eq_bind]

/-! ## Classes -/

instance : HasScalars DefaultObject := ⟨fun d ↦ scalars d.values⟩

instance : NonNull DefaultObject := ⟨fun _ ↦ nofun⟩

instance : Rereads DefaultObject where
  ofJson?_reread {d} h := by
    have hvalues := Rereads.ofJson?_reread (a := d.values) h
    unfold toJson ofJson? DefaultObject.instJsonCodec
    dsimp only
    rw [record?_reread (by rfl) (by decide)]
    simp [-Option.bind_eq_bind, hvalues]
    rfl

instance : HasScalars ClassMembers where
  scalars m := scalars m.properties ++ (scalars m.functions ++ (scalars m.propertiesSize ++
    (scalars m.numReplicatedProperties ++ (scalars m.defaultObject ++ scalars m.timelines))))

namespace Class

mutual

/-- The numbers of a class, of its ancestors and of the interfaces. -/
def numbers : Class → List Scalar
  | ⟨own, superClass, interfaces⟩ =>
    scalars own ++ (superNumbers superClass ++ interfaceNumbers interfaces)

def superNumbers : Option Class → List Scalar
  | none => []
  | some c => c.numbers

def interfaceNumbers : List Class → List Scalar
  | [] => []
  | c :: cs => c.numbers ++ interfaceNumbers cs

end

instance : HasScalars Class := ⟨numbers⟩

instance : NonNull Class := ⟨fun ⟨_, _, _⟩ ↦ nofun⟩

theorem ownOf?_reread {own : ClassMembers} (superClass interfaces : Json)
    (h : Scalar.AllKept (scalars own)) :
    (documentOf own superClass interfaces).reread.object?.bind ownOf? =
      if Scalar.AllFinite (scalars own) then some own else none := by
  have hscalars : scalars own = scalars own.properties ++ (scalars own.functions ++
    (scalars own.propertiesSize ++ (scalars own.numReplicatedProperties ++
      (scalars own.defaultObject ++ scalars own.timelines)))) := rfl
  simp only [hscalars, Scalar.allKept_append] at h
  simp only [documentOf, reread, object?, Option.bind_some, ownOf?]
  simp [-Option.bind_eq_bind, hscalars, Rereads.ofJson?_reread, h]

/-- A class is read back if what it declares, its parent and its interfaces are. -/
theorem ofDocument?_documentOf {own : ClassMembers} {superClass : Option Class}
    {interfaces : List Class} {p q : Prop} [Decidable p] [Decidable q]
    (hown : Scalar.AllKept (scalars own))
    (hsuper : optionalDocument? (superDocument superClass).reread =
      if p then some superClass else none)
    (hinterfaces : ofDocuments? (rereadItems (documents interfaces)) =
      if q then some interfaces else none) :
    ofDocument? (document ⟨own, superClass, interfaces⟩).reread =
      if Scalar.AllFinite (scalars own) ∧ p ∧ q then some ⟨own, superClass, interfaces⟩
      else none := by
  have hmembers := ownOf?_reread (superDocument superClass) (.arr (documents interfaces)) hown
  rw [documentOf, reread, object?, Option.bind_some] at hmembers
  rw [document, documentOf, reread, ofDocument?, ← reread, record?_reread (by rfl) (by decide)]
  rw [Option.bind_eq_bind, Option.bind_some, hmembers]
  simp [-Option.bind_eq_bind, rereadMembers, reread, superOf?, interfacesOf?, itemsOfDocument?,
    hsuper, hinterfaces]

mutual

theorem rereads_document : (c : Class) → Scalar.AllKept c.numbers →
    ofDocument? c.document.reread = if Scalar.AllFinite c.numbers then some c else none
  | ⟨own, superClass, interfaces⟩, h => by
    simp only [numbers, Scalar.allKept_append, Scalar.allFinite_append] at h ⊢
    exact ofDocument?_documentOf h.1 (rereads_superDocument superClass h.2.1)
      (rereads_documents interfaces h.2.2)

theorem rereads_superDocument : (c : Option Class) → Scalar.AllKept (superNumbers c) →
    optionalDocument? (superDocument c).reread =
      if Scalar.AllFinite (superNumbers c) then some c else none
  | none, _ => by simp [superDocument, superNumbers, reread, optionalDocument?]
  | some c, h => by
    rw [superDocument, optionalDocument?, rereads_document c h, map_kept, superNumbers]
    exact NonNull.reread_ne c

theorem rereads_documents : (cs : List Class) → Scalar.AllKept (interfaceNumbers cs) →
    ofDocuments? (rereadItems (documents cs)) =
      if Scalar.AllFinite (interfaceNumbers cs) then some cs else none
  | [], _ => by simp [documents, interfaceNumbers, rereadItems, ofDocuments?]
  | c :: cs, h => by
    rw [interfaceNumbers, Scalar.allKept_append] at h
    rw [documents, rereadItems, ofDocuments?, rereads_document c h.1, rereads_documents cs h.2]
    simp [interfaceNumbers]

end

instance : Rereads Class := ⟨fun h ↦ rereads_document _ h⟩

end Class

end VisualScript

/-!
## Blueprints in documents

A Blueprint is written with its class and read back with it.
-/

namespace VisualScript

open Json

attribute [local simp] Json.field Json.fieldOr Json.optional List.lookup_cons

/-! ### Parts -/

instance : Plain BlueprintType := ⟨fun t ↦ by cases t <;> rfl⟩

instance : Plain VariableDescription where
  ofJson?_reread v := by
    unfold toJson ofJson? VariableDescription.instJsonCodec
    dsimp only
    rw [record?_reread (by rfl) (by decide)]
    simp [-Option.bind_eq_bind]

instance : HasScalars ImplementedInterface := ⟨fun i ↦ scalars i.interface ++ scalars i.graphs⟩

instance : Rereads ImplementedInterface where
  ofJson?_reread {i} h := by
    have hscalars : scalars i = scalars i.interface ++ scalars i.graphs := rfl
    rw [hscalars] at h
    unfold toJson ofJson? instJsonCodecImplementedInterface
    dsimp only
    rw [record?_reread (by rfl) (by decide)]
    simp only [Scalar.allKept_append] at h
    simp [-Option.bind_eq_bind, hscalars, Rereads.ofJson?_reread, h]

/-! ### Blueprints -/

namespace Blueprint

instance : HasScalars Blueprint where
  scalars b := scalars b.parentClass ++ (scalars b.timelines ++ (scalars b.ubergraphPages ++
    (scalars b.functionGraphs ++ (scalars b.delegateSignatureGraphs ++ (scalars b.macroGraphs ++
      (scalars b.implementedInterfaces ++ (scalars b.generatedClass ++
        scalars b.intermediateGeneratedGraphs)))))))

instance : Rereads Blueprint where
  ofJson?_reread {b} h := by
    have hscalars : scalars b = scalars b.parentClass ++ (scalars b.timelines ++
      (scalars b.ubergraphPages ++ (scalars b.functionGraphs ++
        (scalars b.delegateSignatureGraphs ++ (scalars b.macroGraphs ++
          (scalars b.implementedInterfaces ++ (scalars b.generatedClass ++
            scalars b.intermediateGeneratedGraphs))))))) := rfl
    rw [hscalars] at h
    unfold toJson ofJson? Blueprint.instJsonCodec
    dsimp only
    rw [record?_reread (by rfl) (by decide)]
    simp only [Scalar.allKept_append] at h
    simp [-Option.bind_eq_bind, hscalars, Rereads.ofJson?_reread, h]

end Blueprint

/-! ### Texts -/

/-- What comes back from the text of a value, read under a limit to how deep documents nest. -/
def reload? {α : Type} [JsonCodec α] (limit : Nat) (a : α) : Option α :=
  (skimWithin? limit (toJson a).pretty).bind ofJson?

/-- A Blueprint is read from its text under the usual limit. -/
theorem Blueprint.ofText?_text (b : Blueprint) : ofText? b.text = reload? maxDepth b := rfl

/-- A value comes back from its text if its floats are finite, and nothing does otherwise. -/
theorem reload?_eq {α : Type} [JsonCodec α] [HasScalars α] [Rereads α] {limit : Nat} {a : α}
    (hkept : Scalar.AllKept (scalars a)) (hnesting : (toJson a).nesting ≤ limit) :
    reload? limit a = if Scalar.AllFinite (scalars a) then some a else none := by
  rw [reload?, skimWithin?_pretty hnesting, Option.bind_some, Rereads.ofJson?_reread hkept]

namespace Blueprint

/-- A Blueprint whose floats are all finite comes back as it is, whatever its graphs, classes and
scripts look like. -/
theorem reload?_of_allFinite (b : Blueprint) (hkept : Scalar.AllKept (scalars b))
    (hfinite : Scalar.AllFinite (scalars b)) :
    ∀ limit, (toJson b).nesting ≤ limit → reload? limit b = some b := by
  intro limit hnesting
  rw [reload?_eq hkept hnesting, if_pos hfinite]

/-- A Blueprint from a damaged file: a freed slot, links to pins that are not there, flags without
names, a method in an interface of an ancestor, and the least and largest floats. -/
def wreck : Blueprint where
  name := "Wreck \"1\""
  blueprintType := .levelScript
  parentClass :=
    let method : Function :=
      { name := "Sail", flags := ⟨0xffffffff⟩, superFunction := some "Readable::Sail"
        returnValueOffset := some 0
        script := [.tracepoint ⟨4294967295⟩,
          .callFunction "Lib::Go" (some (.inst "Mast")) [.literal (.object none)] none,
          .assign (.frame "X") (.literal (.array [.vector ⟨1⟩ ⟨0x80000000⟩ ⟨0x7f7fffff⟩, .nothing])),
          .jumpIfNot (.literal (.bool true)) 18446744073709551615,
          .computedJump (.frame "State"), .endOfThread, .ret] }
    ⟨{ name := "Ship", flags := ⟨0x80000005⟩, metadata := Metadata.empty.insert "Age" "old"
       defaultObject := some ⟨[("Mast", .object (some "")), ("Mast", .int (-2147483648))]⟩ },
      some ⟨{ name := "Actor", functions := [method] }, none, [Class.new "Readable" none]⟩, []⟩
  newVariables := [
    { name := "", ty := .object "Door", flags := ⟨0x10000⟩, repNotifyFunc := some "" }]
  timelines := [{ name := "T", length := ⟨0xff7fffff⟩ }]
  functionGraphs := [
    { name := "G"
      nodes := ⟨#[none, some { id := ⟨7⟩, kind := .variableSet none, pins := [⟨3⟩, ⟨3⟩] },
        some { id := ⟨1⟩, kind := .makeArray .int 0, pins := [], position := ⟨-2147483648, 1⟩ }]⟩
      pins := ⟨#[some { id := ⟨9⟩, owner := ⟨5⟩, name := "\n", direction := .output, ty := .exec
                        links := [⟨0⟩, ⟨8⟩] }, none]⟩
      order := [⟨2⟩, ⟨2⟩, ⟨0⟩] }]

theorem reload?_of_allFinite_wreck :
    Scalar.AllKept (scalars wreck) ∧ Scalar.AllFinite (scalars wreck) ∧
      ofText? wreck.text = some wreck := by
  have hkept : Scalar.AllKept (scalars wreck) := by decide +kernel
  have hfinite : Scalar.AllFinite (scalars wreck) := by decide +kernel
  have hnesting : (toJson wreck).nesting ≤ maxDepth := by decide +kernel
  have hreload := reload?_of_allFinite wreck hkept hfinite maxDepth hnesting
  exact ⟨hkept, hfinite, (ofText?_text wreck).trans hreload⟩

end Blueprint

end VisualScript
