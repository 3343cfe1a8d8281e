import Esdm.Scheduler

/-!
# Writing and reading through a grid

`esdm_write_grid` and `esdm_read_grid`: the cell that the memspace fits exactly is searched in the
grid and its subgrids, and gets the fragment that holds its data.
-/

namespace Esdm

variable {V : Type}

namespace Dataset

/-- `esdm_grid_findCellInHierarchy`: the grid and the index of the cell that the space fits
exactly, `none` for `ESDM_INVALID_ARGUMENT_ERROR`.  The first argument bounds the nesting. -/
def findCellInHierarchy (space : Dataspace) :
    ℕ → ℕ → Dataset V → Outcome (Dataset V × Option (ℕ × ℤ))
  | 0, _, _ => .error .fuel
  | depth + 1, g, ds => do
    let grid ← ds.grid g
    match ← Grid.findCell grid.axes space.dim false with
    | (none, _) => return (ds, none)
    | (some index, tooSmall) =>
      let i := grid.linearIndex index
      eassert .cellIndex (0 ≤ i)
      if grid.cells = none ∧ tooSmall then return (ds, none)
      else
        let grid ← grid.ensureGrid
        let ds := ds.setGrid g grid
        let cell ← grid.cell i
        match cell.subgrid with
        | some h => findCellInHierarchy space depth h ds
        | none => if tooSmall then return (ds, none) else return (ds, some (g, i))

/-- Put a fragment into a cell. -/
def setCellFragment (ds : Dataset V) (g : ℕ) (i : ℤ) (r : ℕ) : Outcome (Dataset V) := do
  let grid ← ds.grid g
  let cell ← grid.cell i
  return ds.setGrid g (grid.setCell i { cell with fragment := some r })

/-- Put a fragment into a cell that has been empty, and count the cell. -/
def fillCell (ds : Dataset V) (g : ℕ) (i : ℤ) (r : ℕ) : Outcome (Dataset V) := do
  let ds ← ds.setCellFragment g i r
  registerCompletedCell ds.gridHeap.length ds g

/-- `esdm_write_grid` -/
def writeGrid (env : Env V) (ds : Dataset V) (g : ℕ) (user : Mem V) (space : Dataspace) :
    Outcome (Status × Dataset V) := do
  let grid ← ds.grid g
  if grid.dimCount ≠ space.dims then return (.invalidArgumentError, ds)
  else
    let (ds, found) ← findCellInHierarchy space ds.gridHeap.length g ds
    match found with
    | none => return (.invalidArgumentError, ds)
    | some (g, i) =>
      let grid ← ds.grid g
      let cell ← grid.cell i
      if cell.fragment ≠ none then return (.success, ds)
      else
        match ds.lookupFragmentForShape space with
        | some r =>
          let ds ← ds.fillCell g i r
          return (.success, ds)
        | none =>
          let (ds, r, isNewFragment) ← ds.createFragment space (some (.user 0))
          let ds ← ds.fillCell g i r
          if isNewFragment then ds.writeFragmentBlocking env r user else return (.success, ds)

/-- The read of a cell that has no fragment yet, and the fragment that it leaves behind. -/
def readEmptyCell (env : Env V) (ds : Dataset V) (g : ℕ) (i : ℤ) (user : Mem V)
    (space : Dataspace) : Outcome (Status × Mem V × Dataset V) := do
  match ← ds.readBlocking env user space false with
  | (.success, user, ds) =>
    let (ds, r, isNewFragment) ← ds.createFragment space (some (.user 0))
    let ds ← ds.fillCell g i r
    if isNewFragment then
      let (_, ds) ← ds.writeFragmentBlocking env r user
      return (.success, user, ds)
    else return (.success, user, ds)
  | (ret, user, ds) => return (ret, user, ds)

/-- `esdm_read_grid` -/
def readGrid (env : Env V) (ds : Dataset V) (g : ℕ) (user : Mem V) (space : Dataspace) :
    Outcome (Status × Mem V × Dataset V) := do
  let grid ← ds.grid g
  if grid.dimCount ≠ space.dims then return (.invalidArgumentError, user, ds)
  else
    let (ds, found) ← findCellInHierarchy space ds.gridHeap.length g ds
    match found with
    | none => return (.invalidArgumentError, user, ds)
    | some (g, i) =>
      let grid ← ds.grid g
      let cell ← grid.cell i
      match cell.fragment with
      | some r => ds.readSingleFragmentBlocking env user space r
      | none =>
        match ds.lookupFragmentForShape space with
        | some r =>
          let ds ← ds.fillCell g i r
          ds.readSingleFragmentBlocking env user space r
        | none => ds.readEmptyCell env g i user space

end Dataset

end Esdm
