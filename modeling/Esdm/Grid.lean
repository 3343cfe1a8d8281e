import Esdm.Dataspace

/-!
# Axes and grids

The part of `esdm-grid.c` that looks at one grid: its axes, the addressing of its cells, and the
search for the interval that holds a coordinate.  Grids refer to their parents, subgrids and
fragments by index.
-/

namespace Esdm

/-- `esdm_axis_t` -/
structure Axis where
  intervals : ℤ
  outerStart : ℤ
  outerStop : ℤ
  allBounds : List ℤ
  deriving DecidableEq, Repr

namespace Axis

/-- The axis of a new grid: one interval. -/
def make (offset size : ℤ) : Axis := ⟨1, offset, offset + size, [offset, offset + size]⟩

/-- `axis->allBounds[i]` -/
def bound (axis : Axis) (i : ℤ) : Outcome ℤ :=
  if i < 0 then .error .undefined else access axis.allBounds[i.toNat]?

/-- The loop of `esdmI_axis_findInterval`. -/
def search (axis : Axis) (location : ℤ) : ℕ → ℤ → ℤ → Outcome ℤ
  | 0, _, _ => .error .fuel
  | fuel + 1, startIndex, endIndex => do
    if startIndex + 1 < endIndex then
      let first ← axis.bound startIndex
      let last ← axis.bound endIndex
      if last - first = 0 then .error .undefined
      else
        let guess :=
          startIndex + ((endIndex - startIndex) * (location - first)).tdiv (last - first)
        eassert .midIndex (startIndex ≤ guess ∧ guess ≤ endIndex)
        let midIndex :=
          if guess = startIndex then guess + 1 else if guess = endIndex then guess - 1 else guess
        eassert .midIndex (startIndex < midIndex ∧ midIndex < endIndex)
        let mid ← axis.bound midIndex
        if mid > location then axis.search location fuel startIndex midIndex
        else axis.search location fuel midIndex endIndex
    else
      eassert .singleInterval (startIndex + 1 = endIndex)
      return startIndex

/-- `esdmI_axis_findInterval`: the interval that holds the location, or -1. -/
def findInterval (axis : Axis) (location : ℤ) : Outcome ℤ :=
  if location < axis.outerStart ∨ location ≥ axis.outerStop then .ok (-1)
  else axis.search location (axis.intervals.toNat + 1) 0 axis.intervals

/-- `esdmI_axis_matchInterval`: the interval that encloses the range, or -1, and whether it is
longer. -/
def matchInterval (axis : Axis) (start stop : ℤ) (isShort : Bool) : Outcome (ℤ × Bool) := do
  if start ≥ stop then return (-1, isShort)
  else if start < axis.outerStart ∨ stop > axis.outerStop then return (-1, isShort)
  else
    let i ← axis.findInterval start
    eassert .cellIndex (i < axis.intervals)
    if i < 0 then return (-1, isShort)
    else
      let first ← axis.bound i
      let last ← axis.bound (i + 1)
      if stop > last then return (-1, isShort)
      else return (i, if start > first ∨ stop < last then true else isShort)

/-- The axis part of `esdm_grid_subdivideFixed`. -/
def subdivideFixed (axis : Axis) (size : ℤ) (allowIncomplete : Bool) :
    Outcome (Status × Axis) := do
  let axisSize := axis.outerStop - axis.outerStart
  if axisSize < size then return (.invalidArgumentError, axis)
  else if size = 0 then .error .undefined
  else if ¬ allowIncomplete ∧ axisSize.tmod size ≠ 0 then return (.invalidArgumentError, axis)
  else
    let intervals := (axisSize + size - 1).tdiv size
    if intervals < -1 then .error .outOfMemory
    else if intervals = 1 then
      -- the array is `outerBounds` itself, and the loop reads what it has just written
      let first := axis.outerStart + if 0 < axisSize then 0 else axisSize
      let last := first + if size < axisSize then size else axisSize
      return (.success, ⟨1, first, last, [first, last]⟩)
    else
      return (.success,
        { axis with
          intervals := intervals
          allBounds := (List.range (intervals + 1).toNat).map fun i : ℕ =>
            axis.outerStart + if size * i < axisSize then size * i else axisSize })

/-- The axis part of `esdm_grid_subdivideFlexible`. -/
def subdivideFlexible (axis : Axis) (count : ℤ) : Outcome (Status × Axis) := do
  let axisSize := axis.outerStop - axis.outerStart
  if axisSize < count then return (.invalidArgumentError, axis)
  else if count = 0 then .error .undefined
  else if count < -1 then .error .outOfMemory
  else
    return (.success,
      { axis with
        intervals := count
        allBounds := (List.range (count + 1).toNat).map fun i : ℕ =>
          axis.outerStart + (axisSize * i).tdiv count })

/-- The axis part of `esdm_grid_subdivide`.  `bounds` are the `count + 1` bounds. -/
def subdivide (axis : Axis) (bounds : List ℤ) : Outcome (Status × Axis) := do
  eassert .subdivideCount (1 < bounds.length)
  if bounds.head? ≠ some axis.outerStart then return (.invalidArgumentError, axis)
  else if bounds.getLast? ≠ some axis.outerStop then return (.invalidArgumentError, axis)
  else if ∃ q ∈ bounds.zip bounds.tail, q.1 ≥ q.2 then return (.invalidArgumentError, axis)
  else
    return (.success,
      { axis with intervals := (bounds.length : ℤ) - 1, allBounds := bounds })

end Axis

/-- `esdm_gridEntry_t` -/
structure GridEntry where
  subgrid : Option ℕ
  fragment : Option ℕ
  deriving DecidableEq, Repr

/-- `esdm_grid_t` -/
structure Grid where
  parent : Option ℕ
  id : Option String
  emptyCells : ℤ
  /-- `grid->grid`, the cells once they are allocated -/
  cells : Option (List GridEntry)
  axes : List Axis
  deriving DecidableEq, Repr

namespace Grid

def dimCount (grid : Grid) : ℕ := grid.axes.length

/-- `esdmI_grid_cellCount` -/
def cellCount (grid : Grid) : ℤ := (grid.axes.map Axis.intervals).prod

/-- `esdm_grid_ensureGrid` -/
def ensureGrid (grid : Grid) : Outcome Grid :=
  match grid.cells with
  | some _ => .ok grid
  | none =>
    if grid.cellCount < 0 then .error .outOfMemory
    else .ok { grid with
      emptyCells := grid.cellCount
      cells := some (List.replicate grid.cellCount.toNat ⟨none, none⟩) }

/-- `esdm_grid_linearIndex`: -1 for an index outside the grid. -/
def linearIndexFrom : ℤ → List Axis → List ℤ → ℤ
  | result, axis :: axes, i :: index =>
    if i < 0 ∨ i ≥ axis.intervals then -1
    else linearIndexFrom (result * axis.intervals + i) axes index
  | result, _, _ => result

def linearIndex (grid : Grid) (index : List ℤ) : ℤ := linearIndexFrom 0 grid.axes index

/-- `grid->grid[linearIndex]` -/
def cell (grid : Grid) (linearIndex : ℤ) : Outcome GridEntry := do
  let cells ← access grid.cells
  if linearIndex < 0 then .error .undefined else access cells[linearIndex.toNat]?

/-- Write to `grid->grid[linearIndex]`. -/
def setCell (grid : Grid) (linearIndex : ℤ) (entry : GridEntry) : Grid :=
  { grid with cells := grid.cells.map fun cells => cells.set linearIndex.toNat entry }

/-- `esdm_grid_cellSize`, `none` for an index outside the grid. -/
def cellSize : List Axis → List ℤ → Outcome (Option (List Dim))
  | axis :: axes, i :: index => do
    if i < 0 ∨ i ≥ axis.intervals then return none
    else
      let first ← axis.bound i
      let last ← axis.bound (i + 1)
      let dim ← cellSize axes index
      return dim.map (⟨first, last - first⟩ :: ·)
  | _, _ => .ok (some [])

/-- `esdmI_grid_findCell`: the index of the cell that encloses the dataspace, `none` if it spans
more than one, and whether the cell is bigger. -/
def findCell : List Axis → List Dim → Bool → Outcome (Option (List ℤ) × Bool)
  | axis :: axes, d :: dim, tooSmall => do
    let (i, tooSmall) ← axis.matchInterval d.offset (d.offset + d.size) tooSmall
    if i < 0 then return (none, tooSmall)
    else
      let (index, tooSmall) ← findCell axes dim tooSmall
      return (index.map (i :: ·), tooSmall)
  | _, _, tooSmall => .ok (some [], tooSmall)

end Grid

end Esdm
