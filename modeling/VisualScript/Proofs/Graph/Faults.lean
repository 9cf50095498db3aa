import VisualScript.Compile.Validate
import VisualScript.Proofs.Graph.Operations
import VisualScript.Proofs.Log

/-!
# What the check of a graph finds

A graph is checked pin by pin, along the nodes of its order and the pins that these list.  The
checks take nothing for granted: tables may disagree and links may lead nowhere.  They find no
error exactly if every pin that is checked holds, and no more to warn of exactly if its links
and defaults fit.  What no node of the order lists is not checked.
-/

namespace VisualScript.Graph

/-! ## What is checked -/

/-- The pin has a type, its links are recorded on both sides and lead to pins of other nodes and of
the other direction, and there are no more of them than it can take. -/
structure PinHolds (g : Graph) (p : PinId) (pin : Pin) : Prop where
  typed : pin.ty.isWildcard = false
  linked : ∀ q ∈ pin.links, ∃ other, g.pin? q = some other ∧ p ∈ other.links ∧
    other.owner ≠ pin.owner ∧ other.direction ≠ pin.direction
  execOutput : pin.direction = .output → pin.isExec = true → pin.links.length ≤ 1
  dataInput : pin.direction = .input → pin.isExec = false → pin.links.length ≤ 1

/-- No link of the pin leads from an output to an input of a type that does not take it. -/
def LinksFit (g : Graph) (schema : Schema) (pin : Pin) : Prop :=
  pin.direction = .output → ∀ q ∈ pin.links, ∀ other, g.pin? q = some other →
    other.direction = .input → schema.areTypesCompatible pin.ty other.ty = true

/-- The default of an input without links is empty or can be read, where it counts. -/
def DefaultFits (pin : Pin) : Prop :=
  pin.direction = .input → pin.links = [] → pin.defaultValue.isEmpty = true ∨
    (Value.parse? pin.ty pin.defaultValue).isSome ∨ pin.ty.isExec = true ∨ pin.ty.isWildcard = true

/-- A result has an exec input that something is linked to. -/
def ResultReached (g : Graph) (n : NodeId) : Prop :=
  g.kind? n = some .functionResult → ∃ p ∈ g.pinsOf n, ∃ pin, g.pin? p = some pin ∧
    pin.direction = .input ∧ pin.isExec = true ∧ pin.links ≠ []

/-! ## Messages under conditions -/

section Conditions

variable {c : Prop} [Decidable c] {m : Message} {P : Message → Prop}

theorem forall_mem_when : (∀ x ∈ (if c then [m] else []), P x) ↔ (c → P m) := by
  split
  · next h => simp [h]
  · next h => simp [h]

theorem forall_mem_unless : (∀ x ∈ (if c then [] else [m]), P x) ↔ (¬c → P m) := by
  split
  · next h => simp [h]
  · next h => simp [h]

end Conditions

/-! ## Single faults -/

section Faults

variable (g : Graph) (schema : Schema) (p : PinId) (pin : Pin)

theorem linkFaults_errorless (q : PinId) :
    (∀ m ∈ g.linkFaults schema p pin q, m.severity ≠ .error) ↔
      ∃ other, g.pin? q = some other ∧ p ∈ other.links ∧ other.owner ≠ pin.owner ∧
        other.direction ≠ pin.direction := by
  unfold linkFaults
  cases g.pin? q with
  | none => simp [Message.error]
  | some other =>
    simp only [List.forall_mem_append, forall_mem_when, forall_mem_unless, Message.error,
      Message.warning, ne_eq, not_true_eq_false, imp_false, reduceCtorEq, not_false_eq_true,
      implies_true, and_true, not_not, Option.some.injEq, exists_eq_left', and_assoc]

theorem linkFaults_warningless (q : PinId) :
    (∀ m ∈ g.linkFaults schema p pin q, m.severity ≠ .warning) ↔
      ∀ other, g.pin? q = some other → pin.direction = .output → other.direction = .input →
        schema.areTypesCompatible pin.ty other.ty = true := by
  unfold linkFaults
  cases g.pin? q with
  | none => simp [Message.error]
  | some other =>
    simp only [List.forall_mem_append, forall_mem_when, forall_mem_unless, Message.error,
      Message.warning, ne_eq, not_true_eq_false, imp_false, reduceCtorEq, not_false_eq_true,
      implies_true, true_and, Option.some.injEq, forall_eq', not_and, Bool.not_eq_false]

theorem fanFaults_errorless : (∀ m ∈ g.fanFaults p pin, m.severity ≠ .error) ↔
    (pin.direction = .output → pin.isExec = true → pin.links.length ≤ 1) ∧
      (pin.direction = .input → pin.isExec = false → pin.links.length ≤ 1) := by
  unfold fanFaults
  split
  · next hfew => simp [hfew]
  · next hmany =>
    cases pin.direction with
    | output => cases pin.isExec <;> simp [Message.error, hmany]
    | input =>
      cases pin.isExec
      · cases pin.isSelf && g.isPure pin.owner <;> simp [Message.error, hmany]
      · simp

theorem severity_of_mem_fanFaults {m : Message} (h : m ∈ g.fanFaults p pin) :
    m.severity = .error := by
  unfold fanFaults at h
  split at h
  · cases h
  · split at h
    · split at h
      · exact List.mem_singleton.1 h ▸ rfl
      · cases h
    · split at h
      · cases h
      · split at h <;> exact List.mem_singleton.1 h ▸ rfl

theorem defaultValueError?_eq_none {ty : PinType} {value : String} :
    Schema.defaultValueError? ty value = none ↔ value.isEmpty = true ∨
      (Value.parse? ty value).isSome ∨ ty.isExec = true ∨ ty.isWildcard = true := by
  unfold Schema.defaultValueError?
  cases value.isEmpty <;> cases ty.isWildcard <;> cases ty.isExec <;>
    cases Value.parse? ty value <;> simp

/-- The fault of a pin whose type is not determined. -/
def wildcardFaults (g : Graph) (p : PinId) (pin : Pin) : List Message :=
  if pin.ty.isWildcard then
    [.error "The type of @@ is undetermined. Connect something to it to determine the type."
      [g.pinToken p]]
  else []

theorem severity_of_mem_wildcardFaults {m : Message} (h : m ∈ g.wildcardFaults p pin) :
    m.severity = .error :=
  List.mem_singleton.1 (List.mem_ite_nil_right.1 h).2 ▸ rfl

/-- The fault of the default of an input without links. -/
def defaultFaults (g : Graph) (p : PinId) (pin : Pin) : List Message :=
  if pin.direction = .input ∧ pin.isLinked = false then
    match Schema.defaultValueError? pin.ty pin.defaultValue with
    | some problem => [.warning s!"Default value of @@ is invalid: {problem}" [g.pinToken p]]
    | none => []
  else []

theorem of_mem_defaultFaults {m : Message} (h : m ∈ g.defaultFaults p pin) :
    m.severity = .warning ∧ m.tokens = [g.pinToken p] := by
  unfold defaultFaults at h
  split at h
  · split at h
    · exact List.mem_singleton.1 h ▸ ⟨rfl, rfl⟩
    · cases h
  · cases h

theorem defaultFaults_eq_nil : g.defaultFaults p pin = [] ↔ DefaultFits pin := by
  have hlinked : pin.isLinked = false ↔ pin.links = [] := by simp [Pin.isLinked]
  unfold defaultFaults DefaultFits
  rw [← defaultValueError?_eq_none, ← hlinked]
  split
  · next h =>
    cases Schema.defaultValueError? pin.ty pin.defaultValue <;> simp [h.1, h.2]
  · next h => exact iff_of_true rfl fun hin hun ↦ absurd ⟨hin, hun⟩ h

/-! ## Pins and nodes -/

variable {p pin} in
theorem pinFaults_of_pin? (hp : g.pin? p = some pin) : g.pinFaults schema p =
    pin.links.flatMap (g.linkFaults schema p pin) ++ g.wildcardFaults p pin ++
      g.defaultFaults p pin ++ g.fanFaults p pin := by
  unfold pinFaults
  rw [hp]
  rfl

theorem pinFaults_of_none (hp : g.pin? p = none) : g.pinFaults schema p = [] := by
  unfold pinFaults
  rw [hp]

theorem pinFaults_errorless : (∀ m ∈ g.pinFaults schema p, m.severity ≠ .error) ↔
    ∀ pin, g.pin? p = some pin → g.PinHolds p pin := by
  cases hp : g.pin? p with
  | none => simp [g.pinFaults_of_none schema p hp]
  | some pin =>
    have hdefault : ∀ m ∈ g.defaultFaults p pin, m.severity ≠ .error := fun m hm ↦ by
      rw [(g.of_mem_defaultFaults p pin hm).1]
      decide
    have hwildcard : ¬pin.ty.isWildcard = true ↔ pin.ty.isWildcard = false := by
      rw [Bool.not_eq_true]
    rw [g.pinFaults_of_pin? schema hp]
    simp only [wildcardFaults, List.forall_mem_append, List.forall_mem_flatMap, forall_mem_when,
      linkFaults_errorless, fanFaults_errorless, Message.error, ne_eq, not_true_eq_false, imp_false,
      Option.some.injEq, forall_eq', hwildcard]
    exact ⟨fun ⟨⟨⟨hlinked, htyped⟩, _⟩, hexec, hdata⟩ ↦ ⟨htyped, hlinked, hexec, hdata⟩,
      fun h ↦ ⟨⟨⟨h.linked, h.typed⟩, hdefault⟩, h.execOutput, h.dataInput⟩⟩

theorem pinFaults_warningless : (∀ m ∈ g.pinFaults schema p, m.severity ≠ .warning) ↔
    ∀ pin, g.pin? p = some pin → g.LinksFit schema pin ∧ DefaultFits pin := by
  cases hp : g.pin? p with
  | none => simp [g.pinFaults_of_none schema p hp]
  | some pin =>
    have hdefault : (∀ m ∈ g.defaultFaults p pin, m.severity ≠ .warning) ↔ DefaultFits pin := by
      rw [← g.defaultFaults_eq_nil p pin]
      refine ⟨fun h ↦ List.eq_nil_iff_forall_not_mem.2 fun m hm ↦ ?_, fun h ↦ ?_⟩
      · exact h m hm (g.of_mem_defaultFaults p pin hm).1
      · rw [h]
        exact List.forall_mem_nil _
    have hfan : ∀ m ∈ g.fanFaults p pin, m.severity ≠ .warning := fun m hm ↦ by
      rw [g.severity_of_mem_fanFaults p pin hm]
      decide
    rw [g.pinFaults_of_pin? schema hp]
    simp only [wildcardFaults, List.forall_mem_append, List.forall_mem_flatMap, forall_mem_when,
      linkFaults_warningless, hdefault, Message.error, ne_eq, reduceCtorEq, not_false_eq_true,
      implies_true, and_true, Option.some.injEq, forall_eq']
    exact ⟨fun ⟨⟨hlinks, hfits⟩, _⟩ ↦ ⟨fun hout q hq o ho hin ↦ hlinks q hq o ho hout hin, hfits⟩,
      fun ⟨hlinks, hfits⟩ ↦ ⟨⟨fun q hq o ho hout hin ↦ hlinks hout q hq o ho hin, hfits⟩, hfan⟩⟩

theorem resultFaults_eq_nil (n : NodeId) : g.resultFaults n = [] ↔ g.ResultReached n := by
  have hkind : g.kindIs n (·.tag = .functionResult) = true ↔ g.kind? n = some .functionResult := by
    unfold kindIs
    cases hkind : g.kind? n with
    | none => simp
    | some kind => cases kind <;> simp [NodeKind.tag]
  have hreached : (g.filteredPins n .input true).all (fun p ↦ (g.linksOf p).isEmpty) = false ↔
      ∃ p ∈ g.pinsOf n, ∃ pin, g.pin? p = some pin ∧
        pin.direction = .input ∧ pin.isExec = true ∧ pin.links ≠ [] := by
    rw [List.all_eq_false]
    unfold filteredPins
    constructor
    · rintro ⟨p, hp, hlinks⟩
      obtain ⟨hp, hfits⟩ := List.mem_filter.1 hp
      obtain ⟨pin, hpin, hfits⟩ := (Option.any_eq_true _ _).1 hfits
      simp only [linksOf, hpin, Option.map_some, Option.getD_some] at hlinks
      obtain ⟨hin, hexec⟩ : pin.direction = .input ∧ pin.isExec = true := by simpa using hfits
      exact ⟨p, hp, pin, hpin, hin, hexec, by simpa using hlinks⟩
    · rintro ⟨p, hp, pin, hpin, hin, hexec, hlinks⟩
      refine ⟨p, List.mem_filter.2 ⟨hp, ?_⟩, ?_⟩
      · simp [hpin, hin, hexec]
      · simpa [linksOf, hpin] using hlinks
  unfold resultFaults ResultReached
  rw [← hkind, ← hreached]
  split
  · next h => simp [h.1, h.2]
  · next h => simpa using h

theorem resultFaults_tokens {n : NodeId} {m : Message} (h : m ∈ g.resultFaults n) :
    m.severity = .warning ∧ m.tokens = [g.nodeToken n] := by
  unfold resultFaults at h
  split at h
  · exact List.mem_singleton.1 h ▸ ⟨rfl, rfl⟩
  · cases h

theorem faults_errorless : (∀ m ∈ g.faults schema, m.severity ≠ .error) ↔
    ∀ n ∈ g.order, ∀ p ∈ g.pinsOf n, ∀ pin, g.pin? p = some pin → g.PinHolds p pin := by
  have hresult (n : NodeId) : ∀ m ∈ g.resultFaults n, m.severity ≠ .error := fun m hm ↦ by
    rw [(g.resultFaults_tokens hm).1]
    decide
  simp only [faults, List.forall_mem_flatMap, List.forall_mem_append, pinFaults_errorless,
    and_iff_left (hresult _)]

theorem faults_warningless : (∀ m ∈ g.faults schema, m.severity ≠ .warning) ↔
    ∀ n ∈ g.order, (∀ p ∈ g.pinsOf n, ∀ pin, g.pin? p = some pin →
      g.LinksFit schema pin ∧ DefaultFits pin) ∧ g.ResultReached n := by
  have hresult (n : NodeId) : (∀ m ∈ g.resultFaults n, m.severity ≠ .warning) ↔
      g.ResultReached n := by
    rw [← g.resultFaults_eq_nil n]
    refine ⟨fun h ↦ List.eq_nil_iff_forall_not_mem.2 fun m hm ↦ ?_, fun h ↦ ?_⟩
    · exact h m hm (g.resultFaults_tokens hm).1
    · rw [h]
      exact List.forall_mem_nil _
  simp only [faults, List.forall_mem_flatMap, List.forall_mem_append, pinFaults_warningless,
    hresult]

end Faults

/-! ## One warning for each link -/

section Once

variable {g : Graph} {schema : Schema} {p q a b : PinId} {pin other : Pin} {m : Message}

/-- The warning about a link between types that do not fit. -/
def linkWarning (g : Graph) (p : PinId) (pin : Pin) (q : PinId) (other : Pin) : Message :=
  .warning
    s!"Can't connect pins @@ and @@: {pin.ty.label} is not compatible with {other.ty.label}"
    [g.pinToken p, g.pinToken q]

/-- Whether the message warns of the two pins together. -/
def warnsOf (g : Graph) (p q : PinId) (m : Message) : Bool :=
  m.severity = .warning && decide (g.pinToken p ∈ m.tokens) && decide (g.pinToken q ∈ m.tokens)

theorem warnsOf_iff : g.warnsOf p q m = true ↔
    m.severity = .warning ∧ g.pinToken p ∈ m.tokens ∧ g.pinToken q ∈ m.tokens := by
  simp [warnsOf, and_assoc]

theorem pinToken_inj : g.pinToken p = g.pinToken q ↔ p = q := by
  refine ⟨fun h ↦ ?_, congrArg g.pinToken⟩
  have hobject : g.pinRef p = g.pinRef q := congrArg SourceToken.object h
  exact (ObjectRef.pin.inj hobject).2.2

theorem filter_warnsOf_eq_nil {messages : List Message}
    (h : ∀ m ∈ messages, m.severity = .warning → g.pinToken p ∈ m.tokens →
      g.pinToken q ∉ m.tokens) : messages.filter (g.warnsOf p q) = [] := by
  refine List.filter_eq_nil_iff.2 fun m hm hwarns ↦ ?_
  obtain ⟨hwarning, hp, hq⟩ := warnsOf_iff.1 hwarns
  exact h m hm hwarning hp hq

theorem filter_warnsOf_of_errors {messages : List Message}
    (h : ∀ m ∈ messages, m.severity = .error) : messages.filter (g.warnsOf p q) = [] :=
  filter_warnsOf_eq_nil fun m hm hwarning ↦ by
    rw [h m hm] at hwarning
    cases hwarning

/-- What only one element gives is given once. -/
theorem flatMap_of_forall_ne {α β : Type} {f : α → List β} {l : List α} {x : α}
    (hnodup : l.Nodup) (hx : x ∈ l) (hrest : ∀ y ∈ l, y ≠ x → f y = []) :
    l.flatMap f = f x := by
  obtain ⟨before, after, rfl⟩ := List.append_of_mem hx
  obtain ⟨-, hafter, hdisjoint⟩ := List.nodup_append.1 hnodup
  have hbefore : before.flatMap f = [] := List.flatMap_eq_nil_iff.2 fun y hy ↦
    hrest y (List.mem_append_left _ hy) (hdisjoint y hy x List.mem_cons_self)
  have hafter : after.flatMap f = [] := List.flatMap_eq_nil_iff.2 fun y hy ↦
    hrest y (List.mem_append_right _ (List.mem_cons_of_mem x hy))
      fun hyx ↦ (List.nodup_cons.1 hafter).1 (hyx ▸ hy)
  rw [List.flatMap_append, List.flatMap_cons, hbefore, hafter, List.nil_append, List.append_nil]

/-- A warning about a link comes from its output. -/
theorem tokens_of_mem_linkFaults (hm : m ∈ g.linkFaults schema a pin b)
    (hwarning : m.severity = .warning) :
    pin.direction = .output ∧ m.tokens = [g.pinToken a, g.pinToken b] := by
  unfold linkFaults at hm
  cases hb : g.pin? b with
  | none =>
    rw [hb] at hm
    rw [List.mem_singleton.1 hm] at hwarning
    cases hwarning
  | some other =>
    simp only [hb, List.mem_append, List.mem_ite_nil_right, List.mem_ite_nil_left,
      List.mem_singleton] at hm
    rcases hm with ((⟨-, rfl⟩ | ⟨-, rfl⟩) | ⟨-, rfl⟩) | ⟨⟨hout, -⟩, rfl⟩
    · cases hwarning
    · cases hwarning
    · cases hwarning
    · exact ⟨hout, rfl⟩

/-- A warning about a pin names it alone, or names the ends of a link from an output. -/
theorem tokens_of_mem_pinFaults (hm : m ∈ g.pinFaults schema a) (hwarning : m.severity = .warning) :
    m.tokens = [g.pinToken a] ∨ ∃ pin b, g.pin? a = some pin ∧ pin.direction = .output ∧
      m.tokens = [g.pinToken a, g.pinToken b] := by
  cases ha : g.pin? a with
  | none =>
    rw [g.pinFaults_of_none schema a ha] at hm
    cases hm
  | some pin =>
    rw [g.pinFaults_of_pin? schema ha] at hm
    simp only [List.mem_append, List.mem_flatMap] at hm
    rcases hm with ((⟨b, -, hlink⟩ | hwildcard) | hdefault) | hfan
    · obtain ⟨hout, htokens⟩ := tokens_of_mem_linkFaults hlink hwarning
      exact .inr ⟨pin, b, rfl, hout, htokens⟩
    · rw [g.severity_of_mem_wildcardFaults a pin hwildcard] at hwarning
      cases hwarning
    · exact .inl (g.of_mem_defaultFaults a pin hdefault).2
    · rw [g.severity_of_mem_fanFaults a pin hfan] at hwarning
      cases hwarning

/-- An input is not the output of the same link. -/
theorem ne_of_directions (hp : g.pin? p = some pin) (hq : g.pin? q = some other)
    (hout : pin.direction = .output) (hin : other.direction = .input) : p ≠ q := by
  rintro rfl
  obtain rfl : pin = other := Option.some.inj (hp.symm.trans hq)
  rw [hout] at hin
  cases hin

/-- No other pin has a warning about the link. -/
theorem filter_pinFaults_of_ne (hp : g.pin? p = some pin) (hq : g.pin? q = some other)
    (hout : pin.direction = .output) (hin : other.direction = .input) (hne : a ≠ p) :
    (g.pinFaults schema a).filter (g.warnsOf p q) = [] := by
  refine filter_warnsOf_eq_nil fun m hm hwarning hpm hqm ↦ ?_
  have hpq : p ≠ q := ne_of_directions hp hq hout hin
  rcases tokens_of_mem_pinFaults hm hwarning with htokens | ⟨source, b, ha, hsource, htokens⟩
  · rw [htokens, List.mem_singleton, pinToken_inj] at hpm
    exact hne hpm.symm
  · -- `p` can only be the far end, so `q` is the near one: but that is an output
    simp only [htokens, List.mem_cons, List.not_mem_nil, or_false, pinToken_inj] at hpm hqm
    obtain rfl : p = b := hpm.resolve_left hne.symm
    obtain rfl : q = a := hqm.resolve_right hpq.symm
    obtain rfl : source = other := Option.some.inj (ha.symm.trans hq)
    rw [hsource] at hin
    cases hin

/-- All that a link that does not fit is warned of is that it does not. -/
theorem filter_linkFaults_self (hq : g.pin? q = some other) (hout : pin.direction = .output)
    (hin : other.direction = .input)
    (hunfit : schema.areTypesCompatible pin.ty other.ty = false) :
    (g.linkFaults schema p pin q).filter (g.warnsOf p q) = [g.linkWarning p pin q other] := by
  have hwarns : g.warnsOf p q (g.linkWarning p pin q other) = true :=
    warnsOf_iff.2 ⟨rfl, List.mem_cons_self, by simp [linkWarning, Message.warning]⟩
  unfold linkFaults
  simp only [hq]
  rw [List.filter_append, filter_warnsOf_of_errors, if_pos ⟨hout, hin, hunfit⟩]
  · exact List.filter_cons_of_pos hwarns
  · simp only [List.mem_append, List.mem_ite_nil_right, List.mem_ite_nil_left,
      List.mem_singleton]
    rintro m ((⟨-, rfl⟩ | ⟨-, rfl⟩) | ⟨-, rfl⟩) <;> rfl

/-- A link that does not fit has its one warning among the faults of its output. -/
theorem filter_pinFaults_self (hp : g.pin? p = some pin) (hq : g.pin? q = some other)
    (hout : pin.direction = .output) (hin : other.direction = .input) (hmem : q ∈ pin.links)
    (hnodup : pin.links.Nodup) (hunfit : schema.areTypesCompatible pin.ty other.ty = false) :
    (g.pinFaults schema p).filter (g.warnsOf p q) = [g.linkWarning p pin q other] := by
  have hpq : p ≠ q := ne_of_directions hp hq hout hin
  have hself := filter_linkFaults_self (p := p) hq hout hin hunfit
  have hlinks : ∀ b ∈ pin.links, b ≠ q →
      (g.linkFaults schema p pin b).filter (g.warnsOf p q) = [] := by
    refine fun b _ hne ↦ filter_warnsOf_eq_nil fun m hm hwarning _ hqm ↦ ?_
    simp only [(tokens_of_mem_linkFaults hm hwarning).2, List.mem_cons, List.not_mem_nil,
      or_false, pinToken_inj] at hqm
    exact hne (hqm.resolve_left hpq.symm).symm
  have hdefault : (g.defaultFaults p pin).filter (g.warnsOf p q) = [] := by
    refine filter_warnsOf_eq_nil fun m hm _ _ hqm ↦ ?_
    rw [(g.of_mem_defaultFaults p pin hm).2, List.mem_singleton, pinToken_inj] at hqm
    exact hpq hqm.symm
  have hwildcard : (g.wildcardFaults p pin).filter (g.warnsOf p q) = [] :=
    filter_warnsOf_of_errors fun _ hm ↦ g.severity_of_mem_wildcardFaults p pin hm
  have hfan : (g.fanFaults p pin).filter (g.warnsOf p q) = [] :=
    filter_warnsOf_of_errors fun _ hm ↦ g.severity_of_mem_fanFaults p pin hm
  rw [g.pinFaults_of_pin? schema hp, List.filter_append, List.filter_append, List.filter_append,
    List.filter_flatMap, flatMap_of_forall_ne hnodup hmem hlinks, hself, hdefault, hfan, hwildcard]
  rfl

/-- A link that does not fit has one warning in the whole graph. -/
theorem filter_faults_of_unfit (h : g.Sound) (hp : g.pin? p = some pin)
    (hq : g.pin? q = some other) (hout : pin.direction = .output) (hmem : q ∈ pin.links)
    (hunfit : schema.areTypesCompatible pin.ty other.ty = false) :
    (g.faults schema).filter (g.warnsOf p q) = [g.linkWarning p pin q other] := by
  have hin : other.direction = .input := by
    obtain ⟨other', hq', -, -, hdirection⟩ := h.linked p q pin hp hmem
    obtain rfl : other' = other := Option.some.inj (hq'.symm.trans hq)
    cases hother : other'.direction with
    | input => rfl
    | output => exact absurd (hother.trans hout.symm) hdirection
  have hself : (g.pinFaults schema p).filter (g.warnsOf p q) = [g.linkWarning p pin q other] :=
    filter_pinFaults_self hp hq hout hin hmem (h.filed p pin hp).2 hunfit
  have hothers (a : PinId) (hne : a ≠ p) : (g.pinFaults schema a).filter (g.warnsOf p q) = [] :=
    filter_pinFaults_of_ne hp hq hout hin hne
  have hresult (n : NodeId) : (g.resultFaults n).filter (g.warnsOf p q) = [] :=
    filter_warnsOf_eq_nil fun m hm _ hpm ↦ by
      rw [(g.resultFaults_tokens hm).2, List.mem_singleton] at hpm
      cases congrArg SourceToken.object hpm
  have howner : g.ownerOf? p = some pin.owner := ownerOf?_of_pin? hp
  have hlisted : p ∈ g.pinsOf pin.owner := (h.wellFormed.mem_pinsOf pin.owner p).2 howner
  have hordered : pin.owner ∈ g.order := h.wellFormed.owner_mem_order hp
  -- the node that owns the output is in the order once, and lists the output once
  unfold faults
  rw [List.filter_flatMap, flatMap_of_forall_ne h.wellFormed.nodup_order hordered fun n _ hne ↦ ?_,
    List.filter_append, List.filter_flatMap,
    flatMap_of_forall_ne (h.wellFormed.nodup_pinsOf pin.owner) hlisted fun a _ ↦ hothers a, hself,
    hresult]
  · rfl
  · rw [List.filter_append, hresult, List.append_nil, List.filter_flatMap]
    refine List.flatMap_eq_nil_iff.2 fun a ha ↦ hothers a fun hap ↦ hne ?_
    rw [hap, h.wellFormed.mem_pinsOf, howner] at ha
    exact (Option.some.inj ha).symm

end Once

/-! ## What is reported -/

/-- The check of any graph finds no error exactly if the pins that the nodes of the order list
hold, and warns of nothing exactly if their links and defaults fit and the results are reached.
In a graph whose tables agree, a link between types that do not fit is warned of once. -/
theorem quiet_validate_iff (g : Graph) (schema : Schema) (log : MessageLog) :
    ((g.validate schema log).numErrors = log.numErrors ↔
      ∀ n ∈ g.order, ∀ p ∈ g.pinsOf n, ∀ pin, g.pin? p = some pin → g.PinHolds p pin) ∧
    ((g.validate schema log).numWarnings = log.numWarnings ↔
      ∀ n ∈ g.order, (∀ p ∈ g.pinsOf n, ∀ pin, g.pin? p = some pin →
        g.LinksFit schema pin ∧ DefaultFits pin) ∧ g.ResultReached n) ∧
    (g.Sound → ∀ p pin q other, g.pin? p = some pin → g.pin? q = some other →
      pin.direction = .output → q ∈ pin.links →
      schema.areTypesCompatible pin.ty other.ty = false →
      ∃ messages, g.validate schema log = log.pushAll messages ∧
        messages.filter (g.warnsOf p q) = [g.linkWarning p pin q other]) :=
  ⟨(log.numErrors_pushAll_eq_iff _).trans (g.faults_errorless schema),
    (log.numWarnings_pushAll_eq_iff _).trans (g.faults_warningless schema),
    fun h _ _ _ _ hp hq hout hmem hunfit ↦
      ⟨g.faults schema, rfl, filter_faults_of_unfit h hp hq hout hmem hunfit⟩⟩

/-- An amount is used as a condition. -/
def mismatched : Graph := (empty "Mismatched").runAll
  [.spawn (.variableGet (.selfMember "Amount" .int)), .spawn .branch, .makeLink ⟨0⟩ ⟨2⟩]

/-- The log gains the one warning that the amount is no condition. -/
theorem quiet_validate_iff_mismatched : mismatched.Sound ∧
    ∃ messages, mismatched.validate ⟨"Door"⟩ {} = MessageLog.pushAll {} messages ∧
      (messages.filter (mismatched.warnsOf ⟨0⟩ ⟨2⟩)).map (·.text) =
        ["Can't connect pins @@ and @@: int is not compatible with bool"] := by
  have hsound : mismatched.Sound := (keeps_runAll _ _).sound (sound_empty _)
  obtain ⟨messages, hmessages, hwarned⟩ :=
    (quiet_validate_iff mismatched ⟨"Door"⟩ {}).2.2 hsound ⟨0⟩
      { id := ⟨0⟩, owner := ⟨0⟩, name := "Amount", direction := .output, ty := .int,
        links := [⟨2⟩] }
      ⟨2⟩
      { id := ⟨2⟩, owner := ⟨1⟩, name := "Condition", direction := .input, ty := .boolean,
        defaultValue := "true", links := [⟨0⟩] }
      (by decide +kernel) (by decide +kernel) rfl (by decide) (by decide)
  refine ⟨hsound, messages, hmessages, ?_⟩
  rw [hwarned]
  decide +kernel

/-- Two nodes that list no pins, and a result that is not in the order. -/
def unlisted : Graph := {
  name := "Unlisted"
  nodes := ⟨#[some { id := ⟨0⟩, kind := .branch, pins := [] },
    some { id := ⟨1⟩, kind := .branch, pins := [] },
    some { id := ⟨2⟩, kind := .functionResult, pins := [] }]⟩
  pins := ⟨#[
    some { id := ⟨0⟩, owner := ⟨0⟩, name := "Amount", direction := .output, ty := .int,
           links := [⟨1⟩] },
    some { id := ⟨1⟩, owner := ⟨1⟩, name := "Condition", direction := .input, ty := .boolean,
           links := [⟨0⟩] },
    some { id := ⟨2⟩, owner := ⟨1⟩, name := "Count", direction := .input, ty := .int,
           defaultValue := "many" }]⟩
  order := [⟨0⟩, ⟨1⟩] }

/-- What no node of the order lists is not warned of: not the link from the amount to the
condition, not the default of the count and not the result. -/
theorem not_quiet_validate_iff_unlisted :
    unlisted.validate ⟨"Door"⟩ {} = {} ∧
    (∃ p pin, unlisted.pin? p = some pin ∧ ¬unlisted.LinksFit ⟨"Door"⟩ pin) ∧
    (∃ p pin, unlisted.pin? p = some pin ∧ ¬DefaultFits pin) ∧
    (∃ n, ¬unlisted.ResultReached n) ∧
    ¬∀ (g : Graph) (schema : Schema) (log : MessageLog),
      (g.validate schema log).numWarnings = log.numWarnings ↔
        (∀ p pin, g.pin? p = some pin → g.LinksFit schema pin ∧ DefaultFits pin) ∧
          ∀ n, g.ResultReached n := by
  have hquiet : unlisted.validate ⟨"Door"⟩ {} = {} := rfl
  have hlink : ∃ p pin, unlisted.pin? p = some pin ∧ ¬unlisted.LinksFit ⟨"Door"⟩ pin :=
    ⟨⟨0⟩, _, rfl, fun h ↦ absurd (h rfl ⟨1⟩ (by decide) _ rfl rfl) (by decide)⟩
  have hdefault : ∃ p pin, unlisted.pin? p = some pin ∧ ¬DefaultFits pin :=
    ⟨⟨2⟩, _, rfl, fun h ↦ absurd (h rfl rfl) (by decide +kernel)⟩
  have hresult : ∃ n, ¬unlisted.ResultReached n := by
    refine ⟨⟨2⟩, fun h ↦ ?_⟩
    obtain ⟨p, hp, -⟩ := h rfl
    cases hp
  refine ⟨hquiet, hlink, hdefault, hresult, fun hall ↦ ?_⟩
  obtain ⟨p, pin, hp, hunfit⟩ := hlink
  have hnone : (unlisted.validate ⟨"Door"⟩ {}).numWarnings = ({} : MessageLog).numWarnings := rfl
  exact hunfit (((hall unlisted ⟨"Door"⟩ {}).1 hnone).1 p pin hp).1

end VisualScript.Graph
