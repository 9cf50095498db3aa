import VisualScript.Proofs.Graph.Linking
import VisualScript.Proofs.Graph.Moving

/-!
# Handing links over

Copying and moving hand the links of a pin over to another one by one.  That succeeds exactly if
the other pin can be linked to all that the first is linked to, and then nothing but the links and
the defaults of the pins involved is changed.  If it is refused halfway, the pin keeps what it was
handed before.
-/

namespace VisualScript.Graph

variable {g g' : Graph} {p q r s t : PinId}

instance (g : Graph) (p q : PinId) : Decidable (g.Joins p q) :=
  decidable_of_iff (∃ x ∈ g.end? p, ∃ y ∈ g.end? q, y.1 ≠ x.1 ∧ y.2 ≠ x.2) <| by
    constructor
    · rintro ⟨x, hx, y, hy, hne⟩
      exact ⟨x, y, hx, hy, hne⟩
    · rintro ⟨x, y, hx, hy, hne⟩
      exact ⟨x, hx, y, hy, hne⟩

/-! ## Linking to several pins -/

theorem joins_of_linkAll {ps : List PinId} (hall : (g.linkAll t ps).problem? = none) :
    ∀ p ∈ ps, g.Joins t p := by
  induction ps generalizing g with
  | nil => exact fun p hp ↦ absurd hp List.not_mem_nil
  | cons p ps ih =>
    unfold linkAll at hall
    split at hall
    · next g₁ hmake =>
      have hend := (sameFaces_makeLink hmake).end?_eq
      intro p' hp'
      rcases List.mem_cons.1 hp' with rfl | hp'
      · exact joins_of_makeLink hmake
      · exact (ih hall p' hp').congr (hend t).symm (hend p').symm
    · cases hall

/-- Links that are there already are left as they are. -/
theorem linkAll_of_linked {ps : List PinId} (hjoins : ∀ p ∈ ps, g.Joins t p)
    (hps : ∀ p ∈ ps, p ∈ g.linksOf t) : g.linkAll t ps = ⟨g, none⟩ := by
  induction ps with
  | nil => rfl
  | cons p ps ih =>
    have hmake : g.makeLink t p = .ok g := by
      obtain ⟨g₁, hmake⟩ := (hjoins p List.mem_cons_self).exists_makeLink
      obtain ⟨pt, -, ht, -, -, -, ⟨-, rfl⟩ | ⟨hnew, -⟩⟩ := makeLink_eq_ok hmake
      · exact hmake
      · obtain ⟨pt', ht', hold⟩ := mem_linksOf.1 (hps p List.mem_cons_self)
        cases ht.symm.trans ht'
        exact absurd hold hnew
    unfold linkAll
    rw [hmake]
    exact ih (fun p' hp' ↦ hjoins p' (List.mem_cons_of_mem p hp'))
      fun p' hp' ↦ hps p' (List.mem_cons_of_mem p hp')

/-- Linking stops at the first pin that refuses, with all before it linked. -/
theorem linkAll_of_refused {before after : List PinId} (hbefore : ∀ p ∈ before, g.Joins t p)
    (hs : ¬g.Joins t s) (hall : g.linkAll t before = ⟨g', none⟩) :
    (g.linkAll t (before ++ s :: after)).graph = g' := by
  induction before generalizing g with
  | nil =>
    cases hall
    rw [List.nil_append]
    unfold linkAll
    split
    · next hmake => exact absurd (joins_of_makeLink hmake) hs
    · rfl
  | cons p before ih =>
    rw [List.cons_append]
    unfold linkAll at hall ⊢
    split at hall
    · next g₁ hmake =>
      have hend := (sameFaces_makeLink hmake).end?_eq
      refine ih (fun p' hp' ↦ ?_) (fun hjoins ↦ hs ?_) hall
      · exact (hbefore p' (List.mem_cons_of_mem p hp')).congr (hend t) (hend p')
      · exact hjoins.congr (hend t).symm (hend s).symm
    · cases hall

/-! ## Handing over -/

/-- Both pins are there, and `q` can be linked to all that `p` is linked to. -/
structure CanTake (g : Graph) (p q : PinId) : Prop where
  source : ∃ pin, g.pin? p = some pin
  target : ∃ pin, g.pin? q = some pin
  joins : ∀ s ∈ g.linksOf p, g.Joins q s

/-- The pins that `p` is linked to, up to the first that `q` cannot be linked to. -/
def taken (g : Graph) (p q : PinId) : List PinId := (g.linksOf p).takeWhile fun s ↦ g.Joins q s

theorem copyPinLinks_of_missing (hmissing : g.pin? p = none ∨ g.pin? q = none) :
    ∃ e, g.copyPinLinks p q = ⟨g, some e⟩ := by
  unfold copyPinLinks pin
  rcases hmissing with hp | hq
  · rw [hp]
    exact ⟨_, rfl⟩
  · rw [hq]
    cases g.pin? p with
    | none => exact ⟨_, rfl⟩
    | some pin => exact ⟨_, rfl⟩

/-- Between pins that are there, copying is refused if a link is, and then leaves the same. -/
theorem copyPinLinks_of_pins {pin qpin : Pin} (hp : g.pin? p = some pin)
    (hq : g.pin? q = some qpin) :
    (g.copyPinLinks p q).problem? = (g.linkAll q (g.linksOf p)).problem? ∧
      ((g.copyPinLinks p q).problem? ≠ none →
        (g.copyPinLinks p q).graph = (g.linkAll q (g.linksOf p)).graph) := by
  have hlinks : g.linksOf p = pin.links := by
    rw [linksOf, hp]
    rfl
  unfold copyPinLinks Graph.pin
  rw [hp, hq, hlinks]
  dsimp only
  split
  · next heq =>
    rw [heq]
    exact ⟨rfl, fun _ ↦ rfl⟩
  · next heq =>
    rw [heq]
    exact ⟨rfl, fun hne ↦ absurd rfl hne⟩

theorem problem?_copyPinLinks (h : g.Linked) :
    (g.copyPinLinks p q).problem? = none ↔ g.CanTake p q := by
  constructor
  · intro hcopy
    have hthere : ¬(g.pin? p = none ∨ g.pin? q = none) := by
      intro hmissing
      obtain ⟨e, hrefused⟩ := copyPinLinks_of_missing hmissing
      rw [hrefused] at hcopy
      cases hcopy
    obtain ⟨hp, hq⟩ := not_or.1 hthere
    obtain ⟨pin, hp⟩ := Option.ne_none_iff_exists'.1 hp
    obtain ⟨qpin, hq⟩ := Option.ne_none_iff_exists'.1 hq
    rw [(copyPinLinks_of_pins hp hq).1] at hcopy
    exact ⟨⟨pin, hp⟩, ⟨qpin, hq⟩, joins_of_linkAll hcopy⟩
  · rintro ⟨⟨pin, hp⟩, ⟨qpin, hq⟩, hjoins⟩
    obtain ⟨g', hcopy, -⟩ := exists_copyPinLinks h hp hq hjoins
    rw [hcopy]

theorem problem?_movePinLinks (g : Graph) (p q : PinId) :
    (g.movePinLinks p q).problem? = (g.copyPinLinks p q).problem? := by
  unfold movePinLinks
  split
  · next heq => rw [heq]
  · next heq => rw [heq]

/-- Moving breaks the links that were copied, unless copying was refused. -/
theorem graph_movePinLinks (g : Graph) (p q : PinId) : (g.movePinLinks p q).graph =
    if (g.copyPinLinks p q).problem? = none then (g.copyPinLinks p q).graph.breakPinLinks p
      else (g.copyPinLinks p q).graph := by
  unfold movePinLinks
  split
  · next heq => rw [heq, if_neg (by exact nofun)]
  · next heq => rw [heq, if_pos rfl]

/-- The pin `q` has the links of `p` besides its own and, if it is an input, its defaults. -/
structure LinksTaken (p q : PinId) (g g' : Graph) : Prop where
  name : g'.name = g.name
  faces : SameFaces g g'
  linked : g'.Linked
  target : ∀ s, s ∈ g'.linksOf q ↔ s ∈ g.linksOf p ∨ s ∈ g.linksOf q
  defaultsOf? : ∀ r, g'.defaultsOf? r =
    if r = q ∧ g.directionOf? q = some .input then g.defaultsOf? p else g.defaultsOf? r

/-- The pin `q` has taken the place of `p` in all links. -/
structure LinksMoved (p q : PinId) (g g' : Graph) : Prop extends LinksTaken p q g g' where
  source : g'.linksOf p = []
  others : ∀ r, r ≠ p → r ≠ q → ∀ s, s ∈ g'.linksOf r ↔
    s ∈ (g.linksOf r).map fun t ↦ if t = p then q else t

/-- The pin `q` stands beside `p` in all its links. -/
structure LinksCopied (p q : PinId) (g g' : Graph) : Prop extends LinksTaken p q g g' where
  source : ∀ s, s ∈ g'.linksOf p ↔ s ∈ g.linksOf p
  others : ∀ r, r ≠ p → r ≠ q → ∀ s, s ∈ g'.linksOf r ↔
    s ∈ g.linksOf r ∨ s = q ∧ p ∈ g.linksOf r

/-! ## Links that were handed over -/

/-- A pin that can take the links of another is not linked to it. -/
theorem CanTake.not_mem_linksOf (h : g.Linked) (htake : g.CanTake p q) : p ∉ g.linksOf q :=
  fun hp ↦ not_joins_self (htake.joins q (h.symm hp))

theorem linksCopied_copyPinLinks (h : g.Linked) (hne : p ≠ q) (htake : g.CanTake p q) :
    LinksCopied p q g (g.copyPinLinks p q).graph := by
  have hunlinked := htake.not_mem_linksOf h
  have hfaces := sameFaces_copyPinLinks g p q
  have hname := (Widens.copyPinLinks g p q).name
  obtain ⟨⟨pin, hp⟩, ⟨qpin, hq⟩, hjoins⟩ := htake
  obtain ⟨g', hcopy, hcopied⟩ := exists_copyPinLinks h hp hq hjoins
  rw [hcopy] at hfaces hname ⊢
  refine ⟨⟨hname, hfaces, hcopied.linked, fun s ↦ ?_, fun r ↦ ?_⟩, fun s ↦ ?_,
    fun r hrp hrq s ↦ ?_⟩
  · rw [hcopied.mem_linksOf]
    constructor
    · rintro (hs | ⟨-, hs⟩ | ⟨-, hs⟩)
      · exact .inr hs
      · exact .inl hs
      · exact absurd (h.symm hs) hunlinked
    · rintro (hs | hs)
      · exact .inr (.inl ⟨rfl, hs⟩)
      · exact .inl hs
  · split
    · next hr => exact hr.1 ▸ hcopied.defaultsOf? hr.2
    · next hr =>
      refine hcopied.others r ?_
      by_cases hrq : r = q
      · refine .inr ?_
        cases hd : qpin.direction with
        | input => exact absurd ⟨hrq, directionOf?_eq_some.2 ⟨qpin, hq, hd⟩⟩ hr
        | output => exact directionOf?_eq_some.2 ⟨qpin, hq, hd⟩
      · exact .inl hrq
  · rw [hcopied.mem_linksOf]
    refine or_iff_left ?_
    rintro (⟨heq, -⟩ | ⟨-, hp⟩)
    · exact hne heq
    · exact h.not_mem_linksOf_self hp
  · rw [hcopied.mem_linksOf]
    refine or_congr_right ⟨?_, ?_⟩
    · rintro (⟨heq, -⟩ | ⟨rfl, hr⟩)
      · exact absurd heq hrq
      · exact ⟨rfl, h.symm hr⟩
    · rintro ⟨rfl, hp⟩
      exact .inr ⟨rfl, h.symm hp⟩

/-- What is copied and then broken at the source is moved. -/
theorem LinksCopied.linksMoved (hcopied : LinksCopied p q g g') (h : g.Linked) (hne : p ≠ q)
    (hunlinked : p ∉ g.linksOf q) : LinksMoved p q g (g'.breakPinLinks p) := by
  have hbroken (r s : PinId) : s ∈ (g'.breakPinLinks p).linksOf r ↔
      s ∈ g'.linksOf r ∧ r ≠ p ∧ s ≠ p := mem_linksOf_breakPinLinks hcopied.linked
  have hfaces := hcopied.faces.trans (sameFaces_breakPinLinks g' p)
  have hname := (Widens.breakPinLinks g' p).name.trans hcopied.name
  refine ⟨⟨hname, hfaces, hcopied.linked.breakPinLinks p, fun s ↦ ?_, fun r ↦ ?_⟩, ?_,
    fun r hrp hrq s ↦ ?_⟩
  · rw [hbroken, hcopied.target]
    refine and_iff_left_of_imp fun hs ↦ ⟨hne.symm, ?_⟩
    rintro rfl
    exact hs.elim h.not_mem_linksOf_self hunlinked
  · rw [defaultsOf?_breakPinLinks, hcopied.defaultsOf?]
  · exact List.eq_nil_iff_forall_not_mem.2 fun s hs ↦ ((hbroken p s).1 hs).2.1 rfl
  · rw [hbroken, hcopied.others r hrp hrq, List.mem_map]
    constructor
    · rintro ⟨hs | ⟨rfl, hp⟩, -, hsp⟩
      · exact ⟨s, hs, if_neg hsp⟩
      · exact ⟨p, hp, if_pos rfl⟩
    · rintro ⟨t, ht, rfl⟩
      split
      · next heq => exact ⟨.inr ⟨rfl, heq ▸ ht⟩, hrp, hne.symm⟩
      · next htp => exact ⟨.inl ht, hrp, htp⟩

/-- A pin hands its links over to another exactly if that one can take them all, and then no
other link, no default and nothing else of the graph is changed. -/
theorem linksMoved_movePinLinks (h : g.Linked) (hne : p ≠ q) :
    ((g.movePinLinks p q).problem? = none ↔ g.CanTake p q) ∧
    ((g.copyPinLinks p q).problem? = none ↔ g.CanTake p q) ∧
    ((g.movePinLinks p q).problem? = none → LinksMoved p q g (g.movePinLinks p q).graph) ∧
    ((g.copyPinLinks p q).problem? = none → LinksCopied p q g (g.copyPinLinks p q).graph) := by
  have hcopies := problem?_copyPinLinks (p := p) (q := q) h
  rw [problem?_movePinLinks, graph_movePinLinks]
  refine ⟨hcopies, hcopies, fun hok ↦ ?_, fun hok ↦ ?_⟩
  · have hcopied := linksCopied_copyPinLinks h hne (hcopies.1 hok)
    rw [if_pos hok]
    exact hcopied.linksMoved h hne ((hcopies.1 hok).not_mem_linksOf h)
  · exact linksCopied_copyPinLinks h hne (hcopies.1 hok)

/-- Two branches that lead to the same branch, the first of them to another one as well. -/
def meeting : Graph := (empty "Meeting").runAll [.spawn .branch, .spawn .branch, .spawn .branch,
  .spawn .branch, .connect ⟨0⟩ PinName.thenOut ⟨2⟩ PinName.execute,
  .connect ⟨1⟩ PinName.thenOut ⟨2⟩ PinName.execute, .connect ⟨0⟩ PinName.thenOut ⟨3⟩ PinName.execute]

/-- Both branches lead on to the input that takes the links, one of them did so before. -/
theorem linksMoved_movePinLinks_meeting :
    meeting.Linked ∧ (⟨8⟩ : PinId) ≠ ⟨12⟩ ∧ (meeting.movePinLinks ⟨8⟩ ⟨12⟩).problem? = none ∧
    (meeting.copyPinLinks ⟨8⟩ ⟨12⟩).problem? = none ∧
    LinksMoved ⟨8⟩ ⟨12⟩ meeting (meeting.movePinLinks ⟨8⟩ ⟨12⟩).graph ∧
    LinksCopied ⟨8⟩ ⟨12⟩ meeting (meeting.copyPinLinks ⟨8⟩ ⟨12⟩).graph ∧
    (meeting.movePinLinks ⟨8⟩ ⟨12⟩).graph.linksOf ⟨12⟩ = [⟨2⟩, ⟨6⟩] ∧
    (meeting.movePinLinks ⟨8⟩ ⟨12⟩).graph.linksOf ⟨2⟩ = [⟨12⟩] := by
  have hlinked : meeting.Linked := by decide
  have hne : (⟨8⟩ : PinId) ≠ ⟨12⟩ := by decide
  have hmove : (meeting.movePinLinks ⟨8⟩ ⟨12⟩).problem? = none := by decide
  have hcopy : (meeting.copyPinLinks ⟨8⟩ ⟨12⟩).problem? = none := by decide
  obtain ⟨-, -, hmoved, hcopied⟩ := linksMoved_movePinLinks hlinked hne
  exact ⟨hlinked, hne, hmove, hcopy, hmoved hmove, hcopied hcopy, by decide, by decide⟩

/-! ## Refusals -/

theorem joins_of_mem_takeWhile {ps : List PinId} (hp : p ∈ ps.takeWhile fun p ↦ g.Joins t p) :
    g.Joins t p := by
  have hjoins := List.mem_takeWhile_imp hp
  exact of_decide_eq_true hjoins

/-- Linking that is refused has made the links before the refusal. -/
theorem linkAll_takeWhile {ps : List PinId} (hall : (g.linkAll t ps).problem? ≠ none)
    (htaken : g.linkAll t (ps.takeWhile fun p ↦ g.Joins t p) = ⟨g', none⟩) :
    (g.linkAll t ps).graph = g' := by
  have hsplit : ps.takeWhile (fun p ↦ g.Joins t p) ++ ps.dropWhile (fun p ↦ g.Joins t p) = ps :=
    List.takeWhile_append_dropWhile
  cases hrest : ps.dropWhile fun p ↦ g.Joins t p with
  | nil =>
    rw [hrest, List.append_nil] at hsplit
    rw [hsplit] at htaken
    rw [htaken] at hall
    exact absurd rfl hall
  | cons s after =>
    have hs : ¬g.Joins t s := by
      have hfirst := List.head?_dropWhile_not (fun p ↦ decide (g.Joins t p)) ps
      rw [hrest] at hfirst
      exact of_decide_eq_false hfirst
    rw [hrest] at hsplit
    rw [← hsplit]
    exact linkAll_of_refused (fun p ↦ joins_of_mem_takeWhile) hs htaken

theorem taken_of_missing (hmissing : g.pin? p = none ∨ g.pin? q = none) : g.taken p q = [] := by
  refine List.eq_nil_iff_forall_not_mem.2 fun s hs ↦ ?_
  rcases hmissing with hp | hq
  · obtain ⟨pin, hpin, -⟩ := mem_linksOf.1 ((List.takeWhile_prefix _).subset hs)
    rw [hp] at hpin
    cases hpin
  · obtain ⟨x, -, hx, -⟩ := joins_of_mem_takeWhile hs
    rw [end?, hq] at hx
    cases hx

/-- The pin `q` has refused to take the links of `p`, after it took the first of them.  The graph
is as it was only if these are links that it had. -/
structure Halted (p q : PinId) (g g' : Graph) : Prop where
  name : g'.name = g.name
  linkedTo : LinkedTo q (g.taken p q) g g'
  eq_iff : g' = g ↔ ∀ s ∈ g.taken p q, s ∈ g.linksOf q

theorem halted_copyPinLinks (h : g.Linked) (hrefused : (g.copyPinLinks p q).problem? ≠ none) :
    Halted p q g (g.copyPinLinks p q).graph := by
  have hjoins (s : PinId) (hs : s ∈ g.taken p q) : g.Joins q s := joins_of_mem_takeWhile hs
  obtain ⟨g₁, hall, hlinked⟩ := exists_linkAll h hjoins
  have hgraph : (g.copyPinLinks p q).graph = g₁ := by
    by_cases hmissing : g.pin? p = none ∨ g.pin? q = none
    · obtain ⟨e, hcopy⟩ := copyPinLinks_of_missing hmissing
      rw [taken_of_missing hmissing] at hall
      cases hall
      rw [hcopy]
    · obtain ⟨hp, hq⟩ := not_or.1 hmissing
      obtain ⟨pin, hp⟩ := Option.ne_none_iff_exists'.1 hp
      obtain ⟨qpin, hq⟩ := Option.ne_none_iff_exists'.1 hq
      obtain ⟨hproblem, hgraph⟩ := copyPinLinks_of_pins hp hq
      rw [hgraph hrefused]
      exact linkAll_takeWhile (hproblem ▸ hrefused) hall
  have hname := (Widens.copyPinLinks g p q).name
  rw [hgraph] at hname ⊢
  refine ⟨hname, hlinked, fun heq s hs ↦ ?_, fun hold ↦ ?_⟩
  · rw [← heq]
    exact (hlinked.mem_linksOf q s).2 (.inr (.inl ⟨rfl, hs⟩))
  · rw [linkAll_of_linked hjoins hold] at hall
    cases hall
    rfl

/-- An edit of links that is refused changes nothing but that a pin may have taken the first links
of another, and a connection that is refused changes nothing at all. -/
theorem halted_movePinLinks (h : g.Linked) :
    ((g.copyPinLinks p q).problem? ≠ none → Halted p q g (g.copyPinLinks p q).graph) ∧
    ((g.movePinLinks p q).problem? ≠ none → Halted p q g (g.movePinLinks p q).graph) ∧
    ∀ source output target input,
      (Edit.ofExcept g (g.connect source output target input)).problem? ≠ none →
        (Edit.ofExcept g (g.connect source output target input)).graph = g := by
  rw [problem?_movePinLinks, graph_movePinLinks]
  refine ⟨halted_copyPinLinks h, fun hrefused ↦ ?_, fun source output target input hrefused ↦ ?_⟩
  · rw [if_neg hrefused]
    exact halted_copyPinLinks h hrefused
  · cases hconnect : g.connect source output target input with
    | error e => rfl
    | ok g' =>
      rw [hconnect] at hrefused
      exact absurd rfl hrefused

/-- The `then` of the third branch refuses the first link, that of the last branch the second. -/
theorem halted_movePinLinks_meeting :
    meeting.Linked ∧ (meeting.movePinLinks ⟨2⟩ ⟨10⟩).problem? ≠ none ∧
    (meeting.movePinLinks ⟨2⟩ ⟨10⟩).graph = meeting ∧
    (meeting.copyPinLinks ⟨2⟩ ⟨14⟩).problem? ≠ none ∧
    Halted ⟨2⟩ ⟨14⟩ meeting (meeting.copyPinLinks ⟨2⟩ ⟨14⟩).graph ∧
    meeting.taken ⟨2⟩ ⟨14⟩ = [⟨8⟩] := by
  have hlinked : meeting.Linked := by decide
  have hmove : (meeting.movePinLinks ⟨2⟩ ⟨10⟩).problem? ≠ none := by decide
  have hcopy : (meeting.copyPinLinks ⟨2⟩ ⟨14⟩).problem? ≠ none := by decide
  have hnone : ∀ s ∈ meeting.taken ⟨2⟩ ⟨10⟩, s ∈ meeting.linksOf ⟨10⟩ := by decide
  obtain ⟨-, hmoved, -⟩ := halted_movePinLinks (p := ⟨2⟩) (q := ⟨10⟩) hlinked
  obtain ⟨hcopied, -⟩ := halted_movePinLinks (p := ⟨2⟩) (q := ⟨14⟩) hlinked
  exact ⟨hlinked, hmove, (hmoved hmove).eq_iff.2 hnone, hcopy, hcopied hcopy, by decide⟩

/-- The last branch keeps the link to the third that it took before it refused the link to itself. -/
theorem not_graph_eq_of_refused : ¬∀ g : Graph, g.Sound → ∀ p q : PinId,
    ((g.copyPinLinks p q).problem? ≠ none → (g.copyPinLinks p q).graph = g) ∧
    ((g.movePinLinks p q).problem? ≠ none → (g.movePinLinks p q).graph = g) ∧
    ∀ source output target input,
      (Edit.ofExcept g (g.connect source output target input)).problem? ≠ none →
        (Edit.ofExcept g (g.connect source output target input)).graph = g := by
  intro h
  have hsound : meeting.Sound := (keeps_runAll _ _).sound (sound_empty _)
  have hrefused : (meeting.copyPinLinks ⟨2⟩ ⟨14⟩).problem? ≠ none := by decide
  have hchanged : (meeting.copyPinLinks ⟨2⟩ ⟨14⟩).graph ≠ meeting := by decide
  exact hchanged ((h meeting hsound ⟨2⟩ ⟨14⟩).1 hrefused)

end VisualScript.Graph
