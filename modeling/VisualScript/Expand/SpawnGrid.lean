import VisualScript.Graph.Basic

/-!
# The grid of expanded sections

Graphs that are kept for inspection show each expanded section in a cell of its
own.  Cells follow one another to the right and wrap into rows.
-/

namespace VisualScript

namespace SpawnGrid

def minimumX : Int := -2000
def maximumX : Int := 2000
def topY : Int := -2000
def nodeWidth : Int := 200
def nodeHeight : Int := 150
def horizontalPadding : Int := 250
def verticalPadding : Int := 250
def nodePadding : Int := 40
def commentPadding : Int := 60

end SpawnGrid

/-- The corner of the next free cell and the height of the row so far. -/
structure SpawnGrid where
  x : Int := SpawnGrid.minimumX
  y : Int := SpawnGrid.topY
  rowHeight : Int := 0
  deriving DecidableEq, Inhabited

/-- The smallest rectangle around some positions. -/
structure Bounds where
  left : Int
  top : Int
  right : Int
  bottom : Int
  deriving DecidableEq, Inhabited

namespace Bounds

def ofPosition (p : Position) : Bounds := ⟨p.x, p.y, p.x, p.y⟩

def grow (b : Bounds) (p : Position) : Bounds :=
  ⟨min b.left p.x, min b.top p.y, max b.right p.x, max b.bottom p.y⟩

/-- No positions have no bounds. -/
def ofPositions? : List Position → Option Bounds
  | [] => none
  | p :: ps => some (ps.foldl grow (ofPosition p))

end Bounds

def Graph.positionsOf (g : Graph) (ids : List NodeId) : List Position :=
  ids.filterMap fun id => (g.node? id).map (·.position)

namespace SpawnGrid

/-- Starts a new row when a section of that width would pass the right edge. -/
def wrap (grid : SpawnGrid) (width : Int) : SpawnGrid :=
  if maximumX < grid.x + width ∧ grid.x ≠ minimumX then
    ⟨minimumX, grid.y + (grid.rowHeight + verticalPadding), 0⟩
  else grid

/-- The grid after a section of that size. -/
def advance (grid : SpawnGrid) (width height : Int) : SpawnGrid :=
  { grid with
    x := grid.x + (width + horizontalPadding + nodePadding)
    rowHeight := max grid.rowHeight height }

/-- Moves nodes into the next free cell and puts a comment box around them.  Nothing happens
when none of them is there. -/
def placeSection (grid : SpawnGrid) (g : Graph) (ids : List NodeId) (label : String) :
    Option NodeId × SpawnGrid × Graph :=
  match Bounds.ofPositions? (g.positionsOf ids) with
  | none => (none, grid, g)
  | some b =>
    let width := b.right - b.left + nodeWidth
    let height := b.bottom - b.top + nodeHeight
    let grid := grid.wrap width
    let g := g.offsetNodes ids (grid.x - b.left) (grid.y - b.top)
    let (comment, g) := g.spawnIntermediate (.comment label)
    let g := g.setPosition comment (grid.x - commentPadding) (grid.y - commentPadding)
    (some comment, grid.advance width height, g)

end SpawnGrid

end VisualScript
