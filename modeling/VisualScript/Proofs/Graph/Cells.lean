import VisualScript.Expand.SpawnGrid
import VisualScript.Proofs.Graph.Fragment

/-!
# Cells of the grid

The sections that one grid lays out lie in cells that do not meet, each section as its nodes
stood to one another before, and only the first cell of a row may pass the right edge.
-/

namespace VisualScript

/-! ## Bounds -/

namespace Bounds

/-- The position lies in the bounds, their edges included. -/
def Encloses (b : Bounds) (p : Position) : Prop :=
  b.left ≤ p.x ∧ p.x ≤ b.right ∧ b.top ≤ p.y ∧ p.y ≤ b.bottom

/-- No position lies in both. -/
def Apart (a b : Bounds) : Prop := ∀ p, a.Encloses p → ¬ b.Encloses p

def offset (b : Bounds) (dx dy : Int) : Bounds :=
  ⟨b.left + dx, b.top + dy, b.right + dx, b.bottom + dy⟩

variable {a b : Bounds} {p q : Position} {ps : List Position}

theorem Apart.symm (h : a.Apart b) : b.Apart a := fun p hb ha ↦ h p ha hb

theorem apart_of_right_lt (h : a.right < b.left) : a.Apart b := by
  rintro p ⟨-, hright, -, -⟩ ⟨hleft, -, -, -⟩
  omega

theorem apart_of_bottom_lt (h : a.bottom < b.top) : a.Apart b := by
  rintro p ⟨-, -, -, hbottom⟩ ⟨-, -, htop, -⟩
  omega

theorem encloses_grow_self (b : Bounds) (p : Position) : (b.grow p).Encloses p := by
  simp only [Encloses, grow]
  omega

theorem Encloses.grow (h : b.Encloses q) (p : Position) : (b.grow p).Encloses q := by
  simp only [Encloses, Bounds.grow] at h ⊢
  omega

theorem grow_offset (b : Bounds) (p : Position) (dx dy : Int) :
    (b.offset dx dy).grow (p.offset dx dy) = (b.grow p).offset dx dy := by
  simp only [grow, offset, Position.offset, mk.injEq]
  omega

theorem encloses_foldl_grow (h : q ∈ ps ∨ b.Encloses q) : (ps.foldl grow b).Encloses q := by
  induction ps generalizing b with
  | nil => exact h.resolve_left List.not_mem_nil
  | cons p ps ih =>
    refine ih ?_
    rcases h with h | h
    · rcases List.mem_cons.1 h with rfl | h
      · exact .inr (encloses_grow_self b q)
      · exact .inl h
    · exact .inr (h.grow p)

/-- Bounds enclose the positions that they are made of. -/
theorem encloses_of_mem (h : ofPositions? ps = some b) (hp : p ∈ ps) : b.Encloses p := by
  cases ps with
  | nil => cases h
  | cons q ps =>
    cases h
    refine encloses_foldl_grow ?_
    rcases List.mem_cons.1 hp with rfl | hp
    · exact .inr ⟨Int.le_refl _, Int.le_refl _, Int.le_refl _, Int.le_refl _⟩
    · exact .inl hp

theorem exists_ofPositions? (h : ps ≠ []) : ∃ b, ofPositions? ps = some b := by
  cases ps with
  | nil => exact absurd rfl h
  | cons p ps => exact ⟨_, rfl⟩

/-- Bounds move with the positions. -/
theorem ofPositions?_map_offset (ps : List Position) (dx dy : Int) :
    ofPositions? (ps.map (·.offset dx dy)) = (ofPositions? ps).map (·.offset dx dy) := by
  cases ps with
  | nil => rfl
  | cons p ps =>
    have hfold (b : Bounds) : (ps.map (·.offset dx dy)).foldl grow (b.offset dx dy)
        = (ps.foldl grow b).offset dx dy := by
      induction ps generalizing b with
      | nil => rfl
      | cons q ps ih => rw [List.map_cons, List.foldl_cons, grow_offset, ih, List.foldl_cons]
    exact congrArg some (hfold (ofPosition p))

/-- Bounds of something are not inside out. -/
theorem left_le_right (h : ofPositions? ps = some b) : b.left ≤ b.right ∧ b.top ≤ b.bottom := by
  cases ps with
  | nil => cases h
  | cons p ps =>
    have hp := encloses_of_mem h List.mem_cons_self
    exact ⟨Int.le_trans hp.1 hp.2.1, Int.le_trans hp.2.2.1 hp.2.2.2⟩

end Bounds

/-! ## Positions in a graph -/

namespace Graph

variable {g g' : Graph} {n : NodeId} {ids : List NodeId}

def position? (g : Graph) (n : NodeId) : Option Position := (g.node? n).map (·.position)

theorem contains_eq_position? (g : Graph) (n : NodeId) : g.contains n = (g.position? n).isSome := by
  simp [contains, position?]

theorem positionsOf_congr (h : ∀ n ∈ ids, g'.position? n = g.position? n) :
    g'.positionsOf ids = g.positionsOf ids :=
  List.filterMap_congr h

theorem positionsOf_ne_nil (hne : ids ≠ []) (hlive : ∀ n ∈ ids, g.contains n = true) :
    g.positionsOf ids ≠ [] := by
  obtain ⟨n, rest, rfl⟩ := List.exists_cons_of_ne_nil hne
  obtain ⟨node, hnode⟩ := Option.isSome_iff_exists.1 (hlive n List.mem_cons_self)
  simp [positionsOf, hnode]

/-- Nodes that are named once are moved once. -/
theorem position?_offsetNodes (g : Graph) (hids : ids.Nodup) (dx dy : Int) (n : NodeId) :
    (g.offsetNodes ids dx dy).position? n
      = if n ∈ ids then (g.position? n).map (·.offset dx dy) else g.position? n := by
  induction ids generalizing g with
  | nil => rfl
  | cons m ids ih =>
    obtain ⟨hm, hids⟩ := List.nodup_cons.1 hids
    have hstep : (g.offsetNodes (m :: ids) dx dy).position? n = _ := ih _ hids
    rw [hstep]
    by_cases hn : n = m
    · subst hn
      simp [hm, position?, Function.comp_def]
    · simp [hn, Ne.symm hn, position?]

/-- The comment box of a section moves no node that was there. -/
theorem position?_spawnComment (hn : g.contains n = true) (label : String) (x y : Int) :
    ((g.spawnIntermediate (.comment label)).2.setPosition
      (g.spawnIntermediate (.comment label)).1 x y).position? n = g.position? n := by
  have hlt : n.index < g.nodes.size := lt_of_isSome_node? hn
  have hne : (⟨g.nodes.size⟩ : NodeId) ≠ n := by
    rintro rfl
    exact Nat.lt_irrefl _ hlt
  have hpush : Slots.get? (g.nodes.push
      { id := ⟨g.nodes.size⟩, kind := .comment label, pins := [] }) n.index = g.nodes.get? n.index := by
    rw [Slots.get?_push, if_neg (Nat.ne_of_lt hlt)]
  simp only [position?, setPosition, spawnIntermediate, spawn, NodeKind.startingPins,
    List.foldl_nil, node?_modifyNode, if_neg hne]
  exact congrArg (Option.map _) hpush

/-- The cell of a section: its bounds, and room for the node at their corner. -/
def cellOf? (g : Graph) (ids : List NodeId) : Option Bounds :=
  (Bounds.ofPositions? (g.positionsOf ids)).map fun b =>
    { b with right := b.right + SpawnGrid.nodeWidth, bottom := b.bottom + SpawnGrid.nodeHeight }

end Graph

/-! ## The grid -/

namespace SpawnGrid

variable {grid : SpawnGrid} {g g' : Graph} {ids : List NodeId} {cell : Bounds}

/-- The cell lies above the row that is being filled, or in the row and left of the next cell. -/
def Passed (grid : SpawnGrid) (cell : Bounds) : Prop :=
  cell.bottom < grid.y ∨ cell.bottom ≤ grid.y + grid.rowHeight ∧ cell.right < grid.x

/-- The row has begun and its cells have a height. -/
structure Underway (grid : SpawnGrid) : Prop where
  start : minimumX ≤ grid.x
  height : 0 ≤ grid.rowHeight

/-- The cell of that size at the corner of the grid. -/
def next (grid : SpawnGrid) (width height : Int) : Bounds :=
  ⟨grid.x, grid.y, grid.x + width, grid.y + height⟩

theorem Underway.wrap (h : grid.Underway) (width : Int) : (grid.wrap width).Underway := by
  unfold SpawnGrid.wrap
  split
  · exact ⟨Int.le_refl _, Int.le_refl _⟩
  · exact h

theorem Underway.advance (h : grid.Underway) {width : Int} (hwidth : 0 ≤ width) (height : Int) :
    (grid.advance width height).Underway := by
  obtain ⟨hstart, hheight⟩ := h
  constructor <;> simp only [SpawnGrid.advance, horizontalPadding, nodePadding] <;> omega

/-- A new row begins below all cells of the last one. -/
theorem Passed.wrap (h : grid.Passed cell) (hgrid : grid.Underway) (width : Int) :
    (grid.wrap width).Passed cell := by
  have hheight := hgrid.height
  unfold SpawnGrid.wrap
  split
  · refine .inl ?_
    simp only [Passed, verticalPadding] at h ⊢
    omega
  · exact h

theorem Passed.advance (h : grid.Passed cell) {width : Int} (hwidth : 0 ≤ width) (height : Int) :
    (grid.advance width height).Passed cell := by
  simp only [Passed, SpawnGrid.advance, horizontalPadding, nodePadding] at h ⊢
  omega

theorem passed_next (grid : SpawnGrid) (width height : Int) :
    (grid.advance width height).Passed (grid.next width height) := by
  simp only [Passed, SpawnGrid.advance, next, horizontalPadding, nodePadding]
  omega

theorem Passed.apart (h : grid.Passed cell) (width height : Int) :
    cell.Apart (grid.next width height) := by
  rcases h with habove | ⟨-, hleft⟩
  · exact Bounds.apart_of_bottom_lt habove
  · exact Bounds.apart_of_right_lt hleft

/-- Only the first cell of a row passes the right edge. -/
theorem right_next_wrap (grid : SpawnGrid) (width height : Int)
    (h : ((grid.wrap width).next width height).left ≠ minimumX) :
    ((grid.wrap width).next width height).right ≤ maximumX := by
  unfold SpawnGrid.wrap at h ⊢
  split at h
  · exact absurd rfl h
  · next hfits =>
    rw [if_neg hfits]
    simp only [next] at h ⊢
    omega

/-! ## One section -/

/-- What placing a section does: its nodes move together, and its cell is the next one. -/
structure Places (grid : SpawnGrid) (g : Graph) (ids : List NodeId) (grid' : SpawnGrid)
    (g' : Graph) : Prop where
  kept : ∀ n, g.contains n = true → n ∉ ids → g'.position? n = g.position? n
  moved : ∃ dx dy, ∀ n ∈ ids, g'.position? n = (g.position? n).map (·.offset dx dy)
  fills : ∃ width height, 0 ≤ width ∧ grid' = (grid.wrap width).advance width height ∧
    g'.cellOf? ids = some ((grid.wrap width).next width height)

theorem positionsOf_of_moved {dx dy : Int}
    (h : ∀ n ∈ ids, g'.position? n = (g.position? n).map (·.offset dx dy)) :
    g'.positionsOf ids = (g.positionsOf ids).map (·.offset dx dy) := by
  unfold Graph.positionsOf
  rw [List.map_filterMap]
  exact List.filterMap_congr h

theorem places_placeSection (hne : ids ≠ []) (hids : ids.Nodup)
    (hlive : ∀ n ∈ ids, g.contains n = true) (label : String) :
    Places grid g ids (grid.placeSection g ids label).2.1 (grid.placeSection g ids label).2.2 := by
  obtain ⟨b, hb⟩ := Bounds.exists_ofPositions? (g.positionsOf_ne_nil hne hlive)
  have hbounds := Bounds.left_le_right hb
  generalize hwidth : b.right - b.left + nodeWidth = width
  generalize hheight : b.bottom - b.top + nodeHeight = height
  generalize hto : grid.wrap width = corner
  have hlive' (n : NodeId) (hn : g.contains n = true) :
      (g.offsetNodes ids (corner.x - b.left) (corner.y - b.top)).contains n = true := by
    rw [Graph.contains_eq_position?, Graph.position?_offsetNodes g hids]
    split <;> simpa [Graph.contains_eq_position?] using hn
  have hpos (n : NodeId) (hn : g.contains n = true) :
      (grid.placeSection g ids label).2.2.position? n
        = (g.offsetNodes ids (corner.x - b.left) (corner.y - b.top)).position? n := by
    simp only [placeSection, hb, hwidth, hheight, hto]
    exact Graph.position?_spawnComment (hlive' n hn) _ _ _
  have hmoved : ∀ n ∈ ids, (grid.placeSection g ids label).2.2.position? n
      = (g.position? n).map (·.offset (corner.x - b.left) (corner.y - b.top)) := fun n hn ↦ by
    rw [hpos n (hlive n hn), Graph.position?_offsetNodes g hids, if_pos hn]
  refine ⟨fun n hn hout ↦ ?_, ⟨_, _, hmoved⟩, width, height, ?_, ?_, ?_⟩
  · rw [hpos n hn, Graph.position?_offsetNodes g hids, if_neg hout]
  · subst hwidth
    simp only [nodeWidth]
    omega
  · simp only [placeSection, hb, hwidth, hheight, hto]
  · rw [hto, Graph.cellOf?, positionsOf_of_moved hmoved, Bounds.ofPositions?_map_offset, hb]
    subst hwidth hheight
    simp only [Option.map_some, Bounds.offset, next, Option.some.injEq, Bounds.mk.injEq]
    omega

/-! ## Many sections -/

/-- A section that was placed: its nodes, and where they stood before. -/
structure Section where
  nodes : List NodeId
  before : List Position

/-- What calls on one new grid lead to, with the sections that they placed, the last one first.
From one call to the next the graph may change, but every node of a section stays where it is. -/
inductive Laying : SpawnGrid → Graph → List Section → Prop
  | start (g : Graph) : Laying {} g []
  | edit {grid : SpawnGrid} {g g' : Graph} {done : List Section} (h : Laying grid g done)
      (hkept : ∀ s ∈ done, ∀ n ∈ s.nodes, g'.position? n = g.position? n) : Laying grid g' done
  | place {grid : SpawnGrid} {g : Graph} {done : List Section} (h : Laying grid g done)
      {ids : List NodeId} (label : String) (hne : ids ≠ []) (hids : ids.Nodup)
      (hlive : ∀ n ∈ ids, g.contains n = true) (hapart : ∀ s ∈ done, s.nodes.Disjoint ids) :
      Laying (grid.placeSection g ids label).2.1 (grid.placeSection g ids label).2.2
        (⟨ids, g.positionsOf ids⟩ :: done)

/-- The nodes stand to one another as before, in a cell that only begins to the right of the
row's start if it does not pass the right edge. -/
structure Settled (g : Graph) (s : Section) (cell : Bounds) : Prop where
  fills : g.cellOf? s.nodes = some cell
  nodes : ∀ p ∈ g.positionsOf s.nodes, cell.Encloses p
  before : ∃ dx dy, g.positionsOf s.nodes = s.before.map (·.offset dx dy)
  start : minimumX ≤ cell.left
  edge : cell.left ≠ minimumX → cell.right ≤ maximumX

/-- The invariant of a run. -/
structure Filled (grid : SpawnGrid) (g : Graph) (done : List Section) : Prop where
  underway : grid.Underway
  live : ∀ s ∈ done, ∀ n ∈ s.nodes, g.contains n = true
  settled : ∀ s ∈ done, ∃ cell, Settled g s cell ∧ grid.Passed cell
  apart : done.Pairwise fun s t ↦ ∀ a b, g.cellOf? s.nodes = some a → g.cellOf? t.nodes = some b →
    a.Apart b

variable {done : List Section} {s : Section}

theorem cellOf?_congr (h : ∀ n ∈ ids, g'.position? n = g.position? n) :
    g'.cellOf? ids = g.cellOf? ids := by
  rw [Graph.cellOf?, Graph.positionsOf_congr h, Graph.cellOf?]

theorem Settled.congr (h : Settled g s cell)
    (hkept : ∀ n ∈ s.nodes, g'.position? n = g.position? n) : Settled g' s cell where
  fills := (cellOf?_congr hkept).trans h.fills
  nodes := by rw [Graph.positionsOf_congr hkept]; exact h.nodes
  before := by rw [Graph.positionsOf_congr hkept]; exact h.before
  start := h.start
  edge := h.edge

theorem Filled.edit (h : Filled grid g done)
    (hkept : ∀ s ∈ done, ∀ n ∈ s.nodes, g'.position? n = g.position? n) :
    Filled grid g' done where
  underway := h.underway
  live s hs n hn := by
    rw [Graph.contains_eq_position?, hkept s hs n hn, ← Graph.contains_eq_position?]
    exact h.live s hs n hn
  settled s hs := by
    obtain ⟨cell, hsettled, hpassed⟩ := h.settled s hs
    exact ⟨cell, hsettled.congr (hkept s hs), hpassed⟩
  apart := by
    refine h.apart.imp_of_mem fun {s t} hs ht hapart a b ha hb ↦ ?_
    rw [cellOf?_congr (hkept s hs)] at ha
    rw [cellOf?_congr (hkept t ht)] at hb
    exact hapart a b ha hb

/-- The nodes of a cell lie in it. -/
theorem encloses_of_cellOf? (h : g.cellOf? ids = some cell) :
    ∀ p ∈ g.positionsOf ids, cell.Encloses p := by
  obtain ⟨b, hb, rfl⟩ := Option.map_eq_some_iff.1 h
  intro p hp
  have hencloses := Bounds.encloses_of_mem hb hp
  simp only [Bounds.Encloses, nodeWidth, nodeHeight] at hencloses ⊢
  omega

theorem Filled.place (h : Filled grid g done) (hne : ids ≠ []) (hids : ids.Nodup)
    (hlive : ∀ n ∈ ids, g.contains n = true) (hapart : ∀ s ∈ done, s.nodes.Disjoint ids)
    (label : String) :
    Filled (grid.placeSection g ids label).2.1 (grid.placeSection g ids label).2.2
      (⟨ids, g.positionsOf ids⟩ :: done) := by
  have hplaces := grid.places_placeSection hne hids hlive label
  revert hplaces
  generalize (grid.placeSection g ids label).2.1 = grid'
  generalize (grid.placeSection g ids label).2.2 = g'
  rintro ⟨hkept, ⟨dx, dy, hmoved⟩, width, height, hwidth, rfl, hcell⟩
  have hold : Filled grid g' done := h.edit fun s hs n hn ↦
    hkept n (h.live s hs n hn) (hapart s hs hn)
  have hunderway := h.underway.wrap width
  have hpassed {c : Bounds} (hc : grid.Passed c) : (grid.wrap width).Passed c :=
    hc.wrap h.underway width
  refine ⟨hunderway.advance hwidth height, ?_, ?_, List.pairwise_cons.2 ⟨?_, hold.apart⟩⟩
  · refine List.forall_mem_cons.2 ⟨fun n hn ↦ ?_, hold.live⟩
    rw [Graph.contains_eq_position?, hmoved n hn, Option.isSome_map,
      ← Graph.contains_eq_position?]
    exact hlive n hn
  · refine List.forall_mem_cons.2 ⟨?_, fun s hs ↦ ?_⟩
    · exact ⟨_, ⟨hcell, encloses_of_cellOf? hcell, ⟨dx, dy, positionsOf_of_moved hmoved⟩,
        hunderway.start, right_next_wrap grid width height⟩, passed_next _ width height⟩
    · obtain ⟨c, hsettled, hc⟩ := hold.settled s hs
      exact ⟨c, hsettled, (hpassed hc).advance hwidth height⟩
  · intro t ht a b ha hb
    obtain ⟨c, hsettled, hc⟩ := hold.settled t ht
    obtain rfl := Option.some.inj (hb.symm.trans hsettled.fills)
    obtain rfl := Option.some.inj (ha.symm.trans hcell)
    exact ((hpassed hc).apart width height).symm

theorem filled_of_laying (h : Laying grid g done) : Filled grid g done := by
  induction h with
  | start g =>
    exact ⟨⟨Int.le_refl _, Int.le_refl _⟩, fun _ h ↦ absurd h List.not_mem_nil,
      fun _ h ↦ absurd h List.not_mem_nil, .nil⟩
  | edit _ hkept ih => exact ih.edit hkept
  | place _ label hne hids hlive hapart ih => exact ih.place hne hids hlive hapart label

/-- However many sections one grid lays out, their cells do not meet; each section stands in its
cell as it stood before, and only begins to the right of the row's start if it ends by the right
edge. -/
theorem laidOut_of_laying (h : Laying grid g done) :
    (done.Pairwise fun s t ↦ ∀ a b, g.cellOf? s.nodes = some a → g.cellOf? t.nodes = some b →
      a.Apart b) ∧
    ∀ s ∈ done, ∃ cell, Settled g s cell := by
  have hfilled := filled_of_laying h
  refine ⟨hfilled.apart, fun s hs ↦ ?_⟩
  obtain ⟨cell, hsettled, -⟩ := hfilled.settled s hs
  exact ⟨cell, hsettled⟩

/-- Two nodes that stand further apart than the grid is wide, and two that stand below them. -/
def scattered : Graph :=
  let g := (Graph.empty "Scattered").spawnAt .branch (-7000) 40
  let g := g.2.spawnAt .branch (-3000) (-10)
  let g := g.2.spawnAt .branch 5 600
  (g.2.spawnAt .branch 90 1000).2

def scatteredFirst : Option NodeId × SpawnGrid × Graph :=
  placeSection {} scattered [⟨0⟩, ⟨1⟩] "Wide"

def scatteredBoth : Option NodeId × SpawnGrid × Graph :=
  scatteredFirst.2.1.placeSection scatteredFirst.2.2 [⟨3⟩, ⟨2⟩] "High"

theorem laidOut_of_laying_scattered :
    Laying scatteredBoth.2.1 scatteredBoth.2.2
      [⟨[⟨3⟩, ⟨2⟩], [⟨90, 1000⟩, ⟨5, 600⟩]⟩, ⟨[⟨0⟩, ⟨1⟩], [⟨-7000, 40⟩, ⟨-3000, -10⟩]⟩] ∧
    scatteredBoth.2.2.cellOf? [⟨0⟩, ⟨1⟩] = some ⟨-2000, -2000, 2200, -1800⟩ ∧
    scatteredBoth.2.2.cellOf? [⟨3⟩, ⟨2⟩] = some ⟨-2000, -1550, -1715, -1000⟩ ∧
    Bounds.Apart ⟨-2000, -1550, -1715, -1000⟩ ⟨-2000, -2000, 2200, -1800⟩ ∧
    ∃ cell, Settled scatteredBoth.2.2 ⟨[⟨0⟩, ⟨1⟩], [⟨-7000, 40⟩, ⟨-3000, -10⟩]⟩ cell := by
  have hfirst : Laying scatteredFirst.2.1 scatteredFirst.2.2
      [⟨[⟨0⟩, ⟨1⟩], [⟨-7000, 40⟩, ⟨-3000, -10⟩]⟩] :=
    .place (.start scattered) "Wide" (by decide) (by decide) (by decide) (by simp)
  have hboth : Laying scatteredBoth.2.1 scatteredBoth.2.2 [⟨[⟨3⟩, ⟨2⟩], [⟨90, 1000⟩, ⟨5, 600⟩]⟩, _] :=
    .place hfirst "High" (by decide) (by decide) (by decide) (by simp)
  have hwide : scatteredBoth.2.2.cellOf? [⟨0⟩, ⟨1⟩] = some ⟨-2000, -2000, 2200, -1800⟩ := by decide
  have hhigh : scatteredBoth.2.2.cellOf? [⟨3⟩, ⟨2⟩] = some ⟨-2000, -1550, -1715, -1000⟩ := by
    decide
  obtain ⟨hapart, hsettled⟩ := laidOut_of_laying hboth
  refine ⟨hboth, hwide, hhigh, ?_, hsettled _ (.tail _ (.head _))⟩
  exact List.rel_of_pairwise_cons hapart (.head _) _ _ hhigh hwide

end SpawnGrid

end VisualScript
