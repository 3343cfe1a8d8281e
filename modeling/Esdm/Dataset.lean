import Esdm.Fragment
import Esdm.Grid

/-!
# Datasets

The dataset of `esdm-datatypes.c` with its fragment table (`fragments.c`) and its grids.  Fragments
and grids are the entries of two heaps that only grow, and pointers to them are indices.  The
table maps the shapes of its fragments to them; GLib's hash table is the list of its entries.
-/

namespace Esdm

variable {V : Type}

/-- `esdm_dataset_t` -/
structure Dataset (V : Type) where
  dataspace : Dataspace
  fillValue : Option V
  /-- the extent reached so far, if some dimension is unlimited -/
  actualSize : Option (List ℤ)
  status : DataStatus
  /-- the fragments that have been allocated -/
  fragments : List (Fragment V)
  /-- `fragments.table` -/
  table : List (Hypercube × ℕ)
  /-- the grids that have been allocated -/
  gridHeap : List Grid
  /-- `grids`: first the complete ones, then the incomplete ones -/
  grids : List ℕ
  gridCount : ℕ
  incompleteGridCount : ℕ

namespace Dataset

def dims (ds : Dataset V) : ℕ := ds.dataspace.dims

/-- `esdm_dataset_init` -/
def init (dataspace : Dataspace) (fillValue : Option V) : Dataset V where
  dataspace := dataspace
  fillValue := fillValue
  actualSize :=
    if ∃ d ∈ dataspace.dim, d.size = 0 then some (dataspace.dim.map Dim.size) else none
  status := .dirty
  fragments := []
  table := []
  gridHeap := []
  grids := []
  gridCount := 0
  incompleteGridCount := 0

/-- The shapes the table has fragments of. -/
def shapes (ds : Dataset V) : List Hypercube := ds.table.map Prod.fst

/-- The points that lie in a fragment of the table. -/
def covered (ds : Dataset V) : Set (List ℤ) := {p | ∃ e ∈ ds.table, p ∈ Hypercube.points e.1}

section Fragments

/-- Follow a pointer to a fragment. -/
def fragment (ds : Dataset V) (r : ℕ) : Outcome (Fragment V) := do
  let f ← access ds.fragments[r]?
  if f.freed then .error .undefined else return f

def setFragment (ds : Dataset V) (r : ℕ) (f : Fragment V) : Dataset V :=
  { ds with fragments := ds.fragments.set r f }

/-- `esdmI_fragments_lookupForShape` -/
def lookupForShape (ds : Dataset V) (shape : Hypercube) : Option ℕ := ds.table.lookup shape

/-- `esdmI_dataset_lookupFragmentForShape` -/
def lookupFragmentForShape (ds : Dataset V) (space : Dataspace) : Option ℕ :=
  ds.lookupForShape space.getExtends

/-- `esdmI_fragments_add` -/
def fragmentsAdd (ds : Dataset V) (r : ℕ) : Outcome (Status × Dataset V) := do
  let f ← ds.fragment r
  match ds.lookupForShape f.shape with
  | some _ => return (.invalidStateError, ds)
  | none => return (.success, { ds with table := ds.table ++ [(f.shape, r)] })

/-- `esdmI_dataset_register_fragment` -/
def registerFragment (ds : Dataset V) (r : ℕ) : Outcome (Status × Dataset V) := do
  match ← ds.fragmentsAdd r with
  | (.success, ds) => return (.success, { ds with status := .dirty })
  | (status, ds) => return (status, ds)

/-- `esdmI_dataset_update_actual_size` -/
def updateActualSize (ds : Dataset V) (space : Dataspace) : Dataset V :=
  { ds with
    actualSize := ds.actualSize.map fun actual =>
      (ds.dataspace.dim.zip (space.dim.zip actual)).map fun (d, s, a) =>
        if d.size = 0 ∧ s.size + s.offset > a then s.size + s.offset else a }

/-- The assertions of `esdmI_fragment_create`, dimension by dimension. -/
def fragmentChecks : List Dim → List Dim → Outcome Unit
  | d :: dim, s :: space => do
    eassert .fragmentSize (s.size > 0)
    eassert .fragmentBounds (d.size = 0 ∨ s.size + s.offset ≤ d.size)
    fragmentChecks dim space
  | _, _ => .ok ()

/-- The fragment that `esdmI_fragment_create` makes. -/
def newFragment (space : Dataspace) (buf : Option (Buf V)) : Fragment V where
  id := none
  dataspace := space
  backend := none
  buf := buf
  ownsBuf := false
  elements := space.elementCount
  bytes := space.totalBytes
  actualBytes := -1
  status := if buf.isSome then .dirty else .notLoaded
  stored := none
  freed := false

/-- `esdmI_fragment_create`: the new fragment is the last one of the heap. -/
def fragmentCreate (ds : Dataset V) (space : Dataspace) (buf : Option (Buf V)) :
    Outcome (Dataset V) := do
  fragmentChecks ds.dataspace.dim space.dim
  return { ds.updateActualSize space with fragments := ds.fragments ++ [newFragment space buf] }

/-- `esdmI_dataset_createFragment`: the fragment of the memspace's shape, and whether it is new. -/
def createFragment (ds : Dataset V) (space : Dataspace) (buf : Option (Buf V)) :
    Outcome (Dataset V × ℕ × Bool) := do
  match ds.lookupFragmentForShape space with
  | some r => return (ds, r, false)
  | none =>
    let r := ds.fragments.length
    let ds ← ds.fragmentCreate space buf
    let (status, ds) ← ds.registerFragment r
    eassert .registerFragment (status = .success)
    return (ds, r, true)

end Fragments

section Grids

/-- Follow a pointer to a grid. -/
def grid (ds : Dataset V) (g : ℕ) : Outcome Grid := access ds.gridHeap[g]?

def setGrid (ds : Dataset V) (g : ℕ) (grid : Grid) : Dataset V :=
  { ds with gridHeap := ds.gridHeap.set g grid }

/-- `esdmI_dataset_registerGrid` -/
def registerGrid (ds : Dataset V) (g : ℕ) : Dataset V :=
  { ds with grids := ds.grids ++ [g], incompleteGridCount := ds.incompleteGridCount + 1 }

/-- `esdmI_dataset_registerGridCompletion`: swap the grid with the first incomplete one. -/
def registerGridCompletion (ds : Dataset V) (g : ℕ) : Outcome (Dataset V) := do
  eassert .registerCompletion (0 < ds.incompleteGridCount)
  let index := ds.gridCount + (ds.grids.drop ds.gridCount).idxOf g
  eassert .registerCompletion (index < ds.gridCount + ds.incompleteGridCount)
  let first ← access ds.grids[ds.gridCount]?
  return { ds with
    grids := (ds.grids.set index first).set ds.gridCount g
    gridCount := ds.gridCount + 1
    incompleteGridCount := ds.incompleteGridCount - 1 }

/-- `esdm_grid_create_internal`: the new grid is the last one of the heap. -/
def gridCreateInternal (ds : Dataset V) (parent : Option ℕ) (dim : List Dim) :
    Outcome (Dataset V) := do
  eassert .dims (ds.dims = dim.length)
  eassert .gridDims (0 < dim.length)
  let grid : Grid := {
    parent := parent
    id := none
    emptyCells := 0
    cells := none
    axes := dim.map fun d => Axis.make d.offset d.size }
  let g := ds.gridHeap.length
  let ds := { ds with gridHeap := ds.gridHeap ++ [grid] }
  return if parent = none then ds.registerGrid g else ds

/-- `esdm_grid_create` -/
def gridCreate (ds : Dataset V) (dim : List Dim) : Outcome (Status × Dataset V) := do
  let ds ← ds.gridCreateInternal none dim
  return (.success, ds)

/-- `esdm_grid_createSubgrid` -/
def gridCreateSubgrid (ds : Dataset V) (g : ℕ) (index : List ℤ) : Outcome (Status × Dataset V) := do
  let parent ← ds.grid g
  if parent.id ≠ none then return (.invalidStateError, ds)
  else
    let i := parent.linearIndex index
    if i < 0 then return (.invalidArgumentError, ds)
    else
      let parent ← parent.ensureGrid
      let ds := ds.setGrid g parent
      let cell ← parent.cell i
      if cell.subgrid ≠ none ∨ cell.fragment ≠ none then return (.invalidStateError, ds)
      else
        match ← Grid.cellSize parent.axes index with
        | none => return (.invalidArgumentError, ds)
        | some dim =>
          let child := ds.gridHeap.length
          let ds ← ds.gridCreateInternal (some g) dim
          return (.success, ds.setGrid g (parent.setCell i { cell with subgrid := some child }))

/-- The frame of the three subdivisions: the grid must not be allocated yet. -/
def gridSubdivideWith (ds : Dataset V) (g : ℕ) (dim : ℤ)
    (subdivide : Axis → Outcome (Status × Axis)) : Outcome (Status × Dataset V) := do
  let grid ← ds.grid g
  if dim < 0 ∨ dim ≥ grid.dimCount then return (.invalidArgumentError, ds)
  else if grid.cells ≠ none then return (.invalidStateError, ds)
  else
    let axis ← access grid.axes[dim.toNat]?
    let (status, axis) ← subdivide axis
    return (status, ds.setGrid g { grid with axes := grid.axes.set dim.toNat axis })

/-- `esdm_grid_subdivideFixed` -/
def gridSubdivideFixed (ds : Dataset V) (g : ℕ) (dim size : ℤ) (allowIncomplete : Bool) :
    Outcome (Status × Dataset V) :=
  ds.gridSubdivideWith g dim fun axis => axis.subdivideFixed size allowIncomplete

/-- `esdm_grid_subdivideFlexible` -/
def gridSubdivideFlexible (ds : Dataset V) (g : ℕ) (dim count : ℤ) :
    Outcome (Status × Dataset V) :=
  ds.gridSubdivideWith g dim fun axis => axis.subdivideFlexible count

/-- `esdm_grid_subdivide`.  `bounds` are the `count + 1` bounds. -/
def gridSubdivide (ds : Dataset V) (g : ℕ) (dim : ℤ) (bounds : List ℤ) :
    Outcome (Status × Dataset V) := do
  eassert .subdivideCount (1 < bounds.length)
  ds.gridSubdivideWith g dim fun axis => axis.subdivide bounds

/-- `esdmI_grid_registerCompletedCell`, up the chain of parents. -/
def registerCompletedCell : ℕ → Dataset V → ℕ → Outcome (Dataset V)
  | 0, _, _ => .error .fuel
  | fuel + 1, ds, g => do
    let grid ← ds.grid g
    eassert .emptyCells (grid.emptyCells > 0)
    let ds := ds.setGrid g { grid with emptyCells := grid.emptyCells - 1 }
    if grid.emptyCells = 1 then
      match grid.parent with
      | some parent => registerCompletedCell fuel ds parent
      | none => ds.registerGridCompletion g
    else return ds

end Grids

end Dataset

end Esdm
