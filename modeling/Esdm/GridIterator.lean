import Esdm.Dataset

/-!
# Iterators over the cells of a grid

`esdm_gridIterator_create` and `esdm_gridIterator_next`.  An iterator has a level for the grid and
one for each subgrid that it has descended into; advancing it ascends and descends between the cells
that it counts.
-/

namespace Esdm

variable {V : Type}

/-- `esdm_gridIterator_t` without its parent -/
structure IteratorLevel where
  grid : ℕ
  lastIndex : ℤ
  cellCount : ℤ
  deriving DecidableEq, Repr

/-- An iterator and its parents, the innermost one first; `NULL` is the empty list. -/
abbrev GridIterator := List IteratorLevel

namespace Grid

/-- The loop of `esdm_grid_indexCoordinates`, from the last dimension to the first: the coordinates,
and what is left of the linear index. -/
def coordinates : List Axis → ℤ → Outcome (List ℤ × ℤ)
  | [], linearIndex => .ok ([], linearIndex)
  | axis :: axes, linearIndex => do
    let (index, linearIndex) ← coordinates axes linearIndex
    if axis.intervals = 0 then .error .undefined
    else return (linearIndex.tmod axis.intervals :: index, linearIndex.tdiv axis.intervals)

/-- `esdm_grid_indexCoordinates` -/
def indexCoordinates (grid : Grid) (linearIndex : ℤ) : Outcome (List ℤ) := do
  let (index, linearIndex) ← coordinates grid.axes linearIndex
  eassert .cellIndex (linearIndex = 0)
  return index

end Grid

namespace Dataset

/-- `esdm_gridIterator_create_internal` -/
def gridIteratorCreateInternal (ds : Dataset V) (g : ℕ) (parent : GridIterator) :
    Outcome GridIterator := do
  let grid ← ds.grid g
  return ⟨g, -1, grid.cellCount⟩ :: parent

/-- `esdm_gridIterator_create` -/
def gridIteratorCreate (ds : Dataset V) (g : ℕ) : Outcome (Status × GridIterator) := do
  let grid ← ds.grid g
  if grid.emptyCells ≠ 0 then return (.invalidStateError, [])
  else
    let iterator ← ds.gridIteratorCreateInternal g []
    return (.success, iterator)

/-- `esdm_gridIterator_advance`.  The first argument bounds the rounds of the loop. -/
def gridIteratorAdvance (ds : Dataset V) : ℕ → ℤ → GridIterator → Outcome GridIterator
  | 0, _, _ => .error .fuel
  | fuel + 1, increment, iterator => do
    if increment = 0 then return iterator
    else
      match iterator with
      | [] => .error .undefined
      | level :: parents =>
        let lastIndex := level.lastIndex + 1
        if lastIndex ≥ level.cellCount then
          -- the end of this grid: its parent is advanced instead
          if parents = [] then return []
          else ds.gridIteratorAdvance fuel increment parents
        else
          let grid ← ds.grid level.grid
          let entry ← grid.cell lastIndex
          let iterator := { level with lastIndex := lastIndex } :: parents
          match entry.subgrid with
          | some h =>
            let iterator ← ds.gridIteratorCreateInternal h iterator
            ds.gridIteratorAdvance fuel increment iterator
          | none => ds.gridIteratorAdvance fuel (increment - 1) iterator

/-- `esdm_gridIterator_next`: the status, the iterator and the cell's dataspace. -/
def gridIteratorNext (ds : Dataset V) (fuel : ℕ) (iterator : GridIterator) (increment : ℤ) :
    Outcome (Status × GridIterator × Option Dataspace) := do
  eassert .iterator (iterator ≠ [])
  match ← ds.gridIteratorAdvance fuel increment iterator with
  | [] => return (.success, [], none)
  | level :: parents =>
    let grid ← ds.grid level.grid
    let cellIndex ← grid.indexCoordinates level.lastIndex
    match ← Grid.cellSize grid.axes cellIndex with
    | none => .error (.assertion .cellIndex)
    | some dim =>
      match ds.dataspace.subspace dim with
      | .ok dataspace => return (.success, level :: parents, some dataspace)
      | .error status => return (status, level :: parents, none)

end Dataset

end Esdm
