import VisualScript.Proofs.Names.Renames

/-!
# Names of graphs

Function graphs, pages, macros and the signatures of delegates have names apart, but a function
graph that gets another name takes along every graph of its name.  So a macro is not found any
more, and a signature is not that of its delegate, exactly if a function graph had their name and
could not keep it.
-/

namespace VisualScript

/-! ## Changes that are made together -/

namespace NameValidator

variable {v v₀ : NameValidator} {renames : List (String × String)}

/-- What a name is when it changes: it was so from the beginning, or it is the result of another
change. -/
theorem mem_of_mem_jointChanges {names : List String} {old : String}
    (h : old ∈ (v.jointChanges renames names).map Prod.fst) :
    old ∈ names ∨ old ∈ (renames ++ v.jointChanges renames names).map Prod.snd := by
  induction names generalizing v renames with
  | nil => exact absurd h List.not_mem_nil
  | cons name names ih =>
    rw [jointChanges, List.map_append, List.mem_append] at h
    rw [jointChanges, ← List.append_assoc]
    rcases h with h | h
    · obtain ⟨e, he, rfl⟩ := List.mem_map.1 h
      obtain ⟨new, -, rfl⟩ := List.mem_map.1 he
      refine (followAll_eq_or_mem renames name).imp (fun heq ↦ ?_) fun hmem ↦ ?_
      · exact List.mem_cons.2 (.inl heq)
      · rw [List.map_append, List.map_append, List.append_assoc]
        exact List.mem_append_left _ hmem
    · exact (ih h).imp_left (List.mem_cons_of_mem _)

/-- A name that is not acceptable changes. -/
theorem mem_jointChanges {names : List String} {name : String} (hname : name ∈ names)
    (hne : v.validate name ≠ .ok) :
    name ∈ (renames ++ v.jointChanges renames names).map Prod.fst := by
  induction names generalizing v renames with
  | nil => exact absurd hname List.not_mem_nil
  | cons first names ih =>
    rw [jointChanges, ← List.append_assoc]
    rcases List.mem_cons.1 hname with rfl | hname
    · by_cases hchanged : name ∈ renames.map Prod.fst
      · rw [List.map_append, List.map_append, List.append_assoc]
        exact List.mem_append_left _ hchanged
      · rw [followAll_of_notMem hchanged, accept_of_ne hne, List.map_append]
        refine List.mem_append_left _ ?_
        rw [List.map_append]
        exact List.mem_append_right _ List.mem_cons_self
    · refine ih hname fun hok ↦ hne (Naming.validate_of_subset (fun lower hlower ↦ ?_) hok)
      exact mem_taken_reserve.2 (.inr hlower)

/-- Names that have changed so far.  None is acceptable again, and none is left. -/
structure Changed (v₀ v : NameValidator) (renames : List (String × String)) : Prop where
  taken : v₀.taken ⊆ v.taken
  rejected : ∀ old ∈ renames.map Prod.fst, v.validate old ≠ .ok
  accepted : ∀ new ∈ renames.map Prod.snd, v₀.validate new = .ok
  gone : ∀ name, followAll renames name ∉ renames.map Prod.fst

theorem Changed.step (h : Changed v₀ v renames) {name : String}
    (hends : v.Ends (followAll renames name)) :
    let current := followAll renames name
    Changed v₀ (v.reserve (v.settled current))
      (renames ++ (v.accept current).1.toList.map (current, ·)) := by
  intro current
  obtain ⟨htaken, hrejected, haccepted, hgone⟩ := h
  have htaken' {new : String} : v.taken ⊆ (v.reserve new).taken := fun lower hlower ↦
    mem_taken_reserve.2 (.inr hlower)
  have hgrown {new : String} : v₀.taken ⊆ (v.reserve new).taken := List.Subset.trans htaken htaken'
  have hrejected' {old new : String} (hold : v.validate old ≠ .ok) :
      (v.reserve new).validate old ≠ .ok :=
    fun hok ↦ hold (Naming.validate_of_subset htaken' hok)
  by_cases hok : v.validate current = .ok
  · rw [accept_of_ok hok, Option.toList_none, List.map_nil, List.append_nil]
    exact ⟨hgrown, fun old hold ↦ hrejected' (hrejected old hold), haccepted, hgone⟩
  · have hnew : v.validate (v.makeUnique current) = .ok := hends.validate_makeUnique hok
    rw [accept_of_ne hok, settled_of_ne hok, Option.toList_some, List.map_singleton]
    generalize v.makeUnique current = new at hnew ⊢
    have holds (old : String) : old ∈ (renames ++ [(current, new)]).map Prod.fst →
        v.validate old ≠ .ok := by
      rw [List.map_append, List.mem_append]
      rintro (hold | hold)
      · exact hrejected old hold
      · exact List.mem_singleton.1 hold ▸ hok
    refine ⟨hgrown, fun old hold ↦ hrejected' (holds old hold), ?_, fun other ↦ ?_⟩
    · rw [List.map_append]
      refine List.forall_mem_append.2 ⟨haccepted, List.forall_mem_singleton.2 ?_⟩
      exact Naming.validate_of_subset htaken hnew
    · rw [followAll_append, Function.comp_apply]
      show NodeKind.follow current new _ ∉ _
      unfold NodeKind.follow
      split
      · -- what is new is acceptable, what is old is not
        exact fun hold ↦ holds new hold hnew
      · next hne =>
        rw [List.map_append, List.mem_append]
        rintro (hold | hold)
        · exact hgone other hold
        · exact hne (List.mem_singleton.1 hold)

theorem Changed.run {names : List String} (h : Changed v₀ v renames)
    (hbound : v.taken.length + names.length ≤ 9999999) :
    ∃ v', Changed v₀ v' (renames ++ v.jointChanges renames names) := by
  induction names generalizing v renames with
  | nil => exact ⟨v, by rwa [jointChanges, List.append_nil]⟩
  | cons name names ih =>
    rw [List.length_cons] at hbound
    have hlength := length_taken_reserve_le v (v.settled (followAll renames name))
    have hends : v.Ends (followAll renames name) := .of_length (by omega) _
    obtain ⟨v', hv'⟩ := ih (h.step hends) (by omega)
    rw [List.append_assoc] at hv'
    exact ⟨v', hv'⟩

/-- There is room for all changes unless very many names are taken. -/
theorem exists_changed (v : NameValidator) {names : List String}
    (hbound : v.taken.length + names.length ≤ 9999999) :
    ∃ v', Changed v v' (v.jointChanges [] names) := by
  have hstart : Changed v v [] := ⟨List.Subset.refl _, fun _ h ↦ absurd h List.not_mem_nil,
    fun _ h ↦ absurd h List.not_mem_nil, fun _ ↦ List.not_mem_nil⟩
  exact hstart.run hbound

end NameValidator

/-! ## Graphs under their names -/

namespace Blueprint

/-- The graphs of a Blueprint follow renames, whatever they are for, and what names a macro does
not. -/
structure GraphsFollow (renames : List (String × String)) (b b' : Blueprint) : Prop where
  pages : b'.ubergraphPages.map (·.name) =
    b.ubergraphPages.map fun g ↦ followAll renames g.name
  functions : b'.functionGraphs.map (·.name) =
    b.functionGraphs.map fun g ↦ followAll renames g.name
  delegates : b'.delegateSignatureGraphs.map (·.name) =
    b.delegateSignatureGraphs.map fun g ↦ followAll renames g.name
  macros : b'.macroGraphs.map (·.name) = b.macroGraphs.map fun g ↦ followAll renames g.name
  interfaces : b'.implementedInterfaces.map (fun i ↦ i.graphs.map (·.name)) =
    b.implementedInterfaces.map fun i ↦ i.graphs.map fun g ↦ followAll renames g.name
  instances : ∀ (j : Nat) (g : Graph), b.allGraphs[j]? = some g →
    ∃ g', b'.allGraphs[j]? = some g' ∧ g'.order = g.order ∧ ∀ n ∈ g.order, g'.macro? n = g.macro? n

theorem Renamed.graphsFollow {all : List Rename} {renames : List (String × String)}
    {b b' : Blueprint} (h : b.Renamed all b')
    (hname : ∀ name, all.foldl (fun name r ↦ r.graphName name) name = followAll renames name) :
    b.GraphsFollow renames b' := by
  have hgraphs (graphs : List Graph) : (graphs.map (Rename.applyAll all)).map (·.name) =
      graphs.map fun g ↦ followAll renames g.name := by
    rw [List.map_map]
    exact List.map_congr_left fun g _ ↦ (Rename.name_applyAll all g).trans (hname g.name)
  refine ⟨?_, ?_, ?_, ?_, ?_, fun j g hg ↦ ?_⟩
  · rw [h.pages, hgraphs]
  · rw [h.functions, hgraphs]
  · rw [h.delegates, hgraphs]
  · rw [h.macros, hgraphs]
  · rw [h.interfaces, List.map_map]
    exact List.map_congr_left fun i _ ↦ hgraphs i.graphs
  · obtain ⟨g', hg', rfl⟩ := h.exists_getElem? hg
    exact ⟨_, hg', Rename.order_applyAll all g, fun n hn ↦ Rename.macro?_applyAll all g hn⟩

theorem isSome_findMacroGraph? (b : Blueprint) (name : String) :
    (b.findMacroGraph? name).isSome = true ↔ name ∈ b.macroGraphs.map (·.name) := by
  unfold findMacroGraph?
  rw [List.find?_isSome, List.mem_map]
  exact exists_congr fun g ↦ and_congr_right' beq_iff_eq

/-- A macro is found under its name by then. -/
theorem GraphsFollow.isSome_findMacroGraph? {renames : List (String × String)} {b b' : Blueprint}
    (h : b.GraphsFollow renames b') (name : String) :
    (b'.findMacroGraph? name).isSome = true ↔
      ∃ old, (b.findMacroGraph? old).isSome = true ∧ followAll renames old = name := by
  rw [Blueprint.isSome_findMacroGraph?, h.macros]
  simp only [Blueprint.isSome_findMacroGraph?, List.mem_map]
  constructor
  · rintro ⟨g, hg, rfl⟩
    exact ⟨g.name, ⟨g, hg, rfl⟩, rfl⟩
  · rintro ⟨old, ⟨g, hg, rfl⟩, rfl⟩
    exact ⟨g, hg, rfl⟩

/-- A name that neither changes nor comes about by a change is that of the same macro. -/
theorem GraphsFollow.findIdx?_macroGraphs {renames : List (String × String)} {b b' : Blueprint}
    (h : b.GraphsFollow renames b') {name : String} (hold : name ∉ renames.map Prod.fst)
    (hnew : name ∉ renames.map Prod.snd) :
    b'.macroGraphs.findIdx? (·.name == name) = b.macroGraphs.findIdx? (·.name == name) := by
  have hnames (graphs : List Graph) : graphs.findIdx? (·.name == name) =
      (graphs.map (·.name)).findIdx? (· == name) := by
    rw [List.findIdx?_map]
    rfl
  have hsame (other : String) : followAll renames other = name ↔ other = name := by
    constructor
    · rintro rfl
      exact ((followAll_eq_or_mem renames other).resolve_right hnew).symm
    · rintro rfl
      exact followAll_of_notMem hold
  rw [hnames, h.macros, List.findIdx?_map]
  congr 1
  funext g
  exact Bool.eq_iff_iff.2 (beq_iff_eq.trans ((hsame g.name).trans beq_iff_eq.symm))

/-- Settling names renames graphs of all kinds by what it changes in the names of function graphs.
A graph keeps its name unless it is one of those that change, and a macro whose name changes is
not found by what still names it.  Of the names of properties, and so of delegates, those change
that a function graph has as well. -/
theorem graphNames_settleNames (b : Blueprint) (log : MessageLog) :
    let b' := (b.settleNames log).1
    let names := b.declarations.functionNames
    let renames := (NameValidator.ofNames (Naming.propertyNames b')).jointChanges [] names
    b.GraphsFollow renames b' ∧
      (∀ old ∈ renames.map Prod.fst, old ∈ names ∨ old ∈ renames.map Prod.snd) ∧
      (∀ name, name ∉ renames.map Prod.fst → followAll renames name = name ∧
        ((b.findMacroGraph? name).isSome = true → (b'.findMacroGraph? name).isSome = true) ∧
        (name ∉ renames.map Prod.snd → b'.macroGraphs.findIdx? (·.name == name) =
          b.macroGraphs.findIdx? (·.name == name))) ∧
      (b.parentClass.memberNames.length + b.declarations.members.length + names.length ≤ 9999999 →
        (∀ name, name ∈ renames.map Prod.fst →
          followAll renames name ≠ name ∧ b'.findMacroGraph? name = none) ∧
        ∀ name ∈ Naming.propertyNames b', name ∈ renames.map Prod.fst ↔ name ∈ names) := by
  intro b' names renames
  obtain ⟨-, all, hall, -, hname⟩ := b.renamed_settleNames log
  have hfollow : b.GraphsFollow renames b' := hall.graphsFollow hname
  refine ⟨hfollow, fun old hold ↦ NameValidator.mem_of_mem_jointChanges hold,
    fun name hkeep ↦ ?_, fun hbound ↦ ?_⟩
  · have hkept := followAll_of_notMem hkeep
    exact ⟨hkept, fun hfound ↦ (hfollow.isSome_findMacroGraph? name).2 ⟨name, hfound, hkept⟩,
      hfollow.findIdx?_macroGraphs hkeep⟩
  · obtain ⟨-, -, -, -, hlength, -⟩ := exists_settled (b := b) log (.of_length (by omega))
    have htaken := NameValidator.length_taken_ofNames_le (Naming.propertyNames b')
    have hroom : (NameValidator.ofNames (Naming.propertyNames b')).taken.length + names.length ≤
        9999999 := Nat.le_trans (Nat.add_le_add_right (Nat.le_trans htaken hlength) _) hbound
    obtain ⟨v, hchanged⟩ := NameValidator.exists_changed _ hroom
    refine ⟨fun name hold ↦ ⟨fun heq ↦ ?_, ?_⟩, fun name hproperty ↦ ⟨fun hold ↦ ?_, fun hmem ↦ ?_⟩⟩
    · exact hchanged.gone name (heq.symm ▸ hold)
    · rw [← Option.not_isSome_iff_eq_none, hfollow.isSome_findMacroGraph?]
      rintro ⟨other, -, rfl⟩
      exact hchanged.gone other hold
    · refine (NameValidator.mem_of_mem_jointChanges hold).resolve_right fun hnew ↦ ?_
      have hok := hchanged.accepted name hnew
      rw [NameValidator.validate_eq_ok, NameValidator.mem_taken_ofNames] at hok
      exact hok.2 (List.mem_map_of_mem hproperty)
    · show name ∈ ([] ++ renames).map Prod.fst
      refine NameValidator.mem_jointChanges hmem fun hok ↦ ?_
      rw [NameValidator.validate_eq_ok, NameValidator.mem_taken_ofNames] at hok
      exact hok.2 (List.mem_map_of_mem hproperty)

/-- A delegate `Hit` with its signature, a macro `Hit` with an instance, and a function, on a
class that inherits one property named `A`. -/
def signalling (function : String) : Blueprint :=
  { calling [function] with
    newVariables := [.new "Hit" .multicastDelegate]
    delegateSignatureGraphs := [Graph.empty "Hit"]
    macroGraphs := [Graph.empty "Hit"]
    ubergraphPages := [((Graph.empty "Page").spawn (.macroInstance { macroGraph := "Hit" })).2] }

theorem graphNames_settleNames_signalling :
    let b := signalling "A"
    let b' := (b.settleNames {}).1
    b.parentClass.memberNames.length + b.declarations.members.length +
        b.declarations.functionNames.length ≤ 9999999 ∧
      b'.functionGraphs.map (·.name) = ["A_1"] ∧
      b'.delegateSignatureGraphs.map (·.name) = ["Hit"] ∧
      (b'.findMacroGraph? "Hit").isSome = true ∧ b'.findMacroGraph? "A" = none := by
  intro b b'
  have hbound : b.parentClass.memberNames.length + b.declarations.members.length +
      b.declarations.functionNames.length ≤ 9999999 := by decide +kernel
  obtain ⟨hfollow, -, hkept, hgone⟩ := graphNames_settleNames b {}
  obtain ⟨hlost, hproperties⟩ := hgone hbound
  have hrenames : (NameValidator.ofNames (Naming.propertyNames (b.settleNames {}).1)).jointChanges
      [] b.declarations.functionNames = [("A", "A_1")] := by decide +kernel
  rw [hrenames] at hfollow hkept hlost
  obtain ⟨-, hfound, -⟩ := hkept "Hit" (by decide)
  exact ⟨hbound, hfollow.functions, hfollow.delegates, hfound rfl, (hlost "A" (by decide)).2⟩

/-- A function graph with the name of a delegate takes along the signature of the delegate and the
macro of that name, whose instance does not follow. -/
theorem not_graphNames_settleNames :
    let b := signalling "Hit"
    let b' := (b.settleNames {}).1
    b.declarations.variableNames = ["Hit"] ∧ b'.declarations.variableNames = ["Hit"] ∧
      b.delegateSignatureGraphs.map (·.name) = ["Hit"] ∧
      b'.delegateSignatureGraphs.map (·.name) ≠ ["Hit"] ∧
      (b.findMacroGraph? "Hit").isSome = true ∧ (b'.findMacroGraph? "Hit").isSome = false ∧
      b'.allGraphs.head?.bind (·.macro? ⟨0⟩) = some { macroGraph := "Hit" } := by
  decide +kernel

end Blueprint

end VisualScript
