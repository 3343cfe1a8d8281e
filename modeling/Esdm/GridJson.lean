import Esdm.Metadata

/-!
# Grids as text

`esdmI_grid_serialize`, `esdmI_grid_createFromJson` and `esdmI_grid_mergeWithJson`: how a grid with
its subgrids is written down, re-created from the text, and filled up from the text of a copy.
Each of them recurses into the subgrids; the recursion is the parameter `nested` of the loop over
the cells, and a bound on the nesting is passed along.
-/

namespace Esdm

variable {V : Type}

namespace Axis

/-- The bounds from the first to the one at `intervals`. -/
def serialize (axis : Axis) : Json := .ints (axis.allBounds.take (axis.intervals + 1).toNat)

/-- The axis with the bounds of an array, which must be two at least. -/
def createFromJson (json : Json) : Option Axis := do
  let bounds ← json.ints?
  if bounds.length < 2 then none
  else
    let first ← bounds.head?
    let last ← bounds.getLast?
    some ⟨(bounds.length : ℤ) - 1, first, last, bounds⟩

end Axis

namespace Dataset

section Serialize

/-- One cell of `esdmI_grid_serialize`. -/
def serializeCell (nested : ℕ → Dataset V → Outcome (Dataset V × Json)) (cell : GridEntry)
    (ds : Dataset V) : Outcome (Dataset V × Json) := do
  eassert .cellEntry (cell.subgrid = none ∨ cell.fragment = none)
  match cell.subgrid, cell.fragment with
  | some h, _ =>
    let (ds, json) ← nested h ds
    return (ds, .obj [("grid", json)])
  | none, some r =>
    let f ← ds.fragment r
    eassert .fragmentId (f.id ≠ none)
    let json ← f.metadataCreate
    return (ds, .obj [("fragment", json)])
  | none, none => return (ds, .obj [])

def serializeCells (nested : ℕ → Dataset V → Outcome (Dataset V × Json)) :
    List GridEntry → Dataset V → Outcome (Dataset V × List Json)
  | [], ds => .ok (ds, [])
  | cell :: cells, ds => do
    let (ds, json) ← serializeCell nested cell ds
    let (ds, rest) ← serializeCells nested cells ds
    return (ds, json :: rest)

/-- The fixed structure state: the cells are allocated, and the grid has an id. -/
def fixStructure (env : Env V) (g : ℕ) (grid : Grid) : Outcome Grid := do
  let grid ← grid.ensureGrid
  return { grid with id := some (grid.id.getD (env.gridId g)) }

/-- `esdmI_grid_serialize` -/
def gridSerialize (env : Env V) : ℕ → ℕ → Dataset V → Outcome (Dataset V × Json)
  | 0, _, _ => .error .fuel
  | depth + 1, g, ds => do
    let grid ← ds.grid g
    let grid ← fixStructure env g grid
    let ds := ds.setGrid g grid
    let id ← access grid.id
    let cells ← access grid.cells
    let (ds, json) ← serializeCells (gridSerialize env depth) (cells.take grid.cellCount.toNat) ds
    return (ds, .obj [("axes", .arr (grid.axes.map Axis.serialize)), ("id", .str id),
      ("grid", .arr json)])

end Serialize

section Create

/-- One cell of `esdmI_grid_createFromJson`; `none` where the function fails. -/
def createCell (env : Env V) (nested : Json → Dataset V → Outcome (Dataset V × Option ℕ))
    (json : Json) (ds : Dataset V) : Outcome (Dataset V × Option GridEntry) :=
  match json.members?, json.get "grid", json.get "fragment" with
  | none, _, _ => .ok (ds, none)
  | some _, some _, some _ => .ok (ds, none)
  | some _, some gridElement, none => do
    let (ds, h) ← nested gridElement ds
    return (ds, h.map fun h => ⟨some h, none⟩)
  | some _, none, some fragmentElement =>
    match fragmentElement.members? with
    | none => .ok (ds, none)
    | some _ =>
      let (ds, r) := ds.createFragmentFromMetadata env fragmentElement
      .ok (ds, r.map fun r => ⟨none, some r⟩)
  | some _, none, none => .ok (ds, some ⟨none, none⟩)

def createCells (env : Env V) (nested : Json → Dataset V → Outcome (Dataset V × Option ℕ)) :
    List Json → Dataset V → Outcome (Dataset V × Option (List GridEntry))
  | [], ds => .ok (ds, some [])
  | json :: rest, ds => do
    match ← createCell env nested json ds with
    | (ds, none) => return (ds, none)
    | (ds, some cell) =>
      let (ds, cells) ← createCells env nested rest ds
      return (ds, cells.map (cell :: ·))

/-- How `esdmI_grid_createFromJson` counts: a cell is empty if it has neither entry. -/
def countEmpty (cells : List GridEntry) : ℕ :=
  cells.countP fun cell => cell.subgrid = none ∧ cell.fragment = none

/-- The members of a grid's description: its id, its axes and its cells. -/
def gridMembers (json : Json) : Option (String × List Axis × List Json) := do
  let axes ← json.get "axes" >>= Json.elements?
  let cells ← json.get "grid" >>= Json.elements?
  let id ← json.get "id" >>= Json.str?
  let axes ← axes.mapM Axis.createFromJson
  if (cells.length : ℤ) = (axes.map Axis.intervals).prod then return (id, axes, cells) else none

/-- `esdmI_grid_createFromJson`; `none` for `ESDM_ERROR`, after which the grids that have been
allocated are freed. -/
def gridCreateFromJson (env : Env V) : ℕ → Option ℕ → Json → Dataset V →
    Outcome (Dataset V × Option ℕ)
  | 0, _, _, _ => .error .fuel
  | depth + 1, parent, json, ds =>
    match gridMembers json with
    | none => .ok (ds, none)
    | some (id, axes, cells) => do
      let g := ds.gridHeap.length
      let gridHeap := ds.gridHeap
      let grid : Grid := ⟨parent, some id, 0, some (List.replicate cells.length ⟨none, none⟩), axes⟩
      let ds := { ds with gridHeap := ds.gridHeap ++ [grid] }
      match ← createCells env (gridCreateFromJson env depth (some g)) cells ds with
      | (ds, none) => return ({ ds with gridHeap := gridHeap }, none)
      | (ds, some entries) =>
        let emptyCells := countEmpty entries
        let ds := ds.setGrid g { grid with emptyCells := emptyCells, cells := some entries }
        if parent = none then
          let ds := ds.registerGrid g
          if emptyCells = 0 then
            let ds ← ds.registerGridCompletion g
            return (ds, some g)
          else return (ds, some g)
        else return (ds, some g)

/-- `esdmI_grid_createFromString`, of a text that has been parsed. -/
def gridCreateFromString (env : Env V) (json : Json) (ds : Dataset V) :
    Outcome (Dataset V × Option ℕ) :=
  gridCreateFromJson env (json.depth + 1) none json ds

end Create

section Merge

/-- One cell of `esdmI_grid_mergeWithJson`. -/
def mergeCell (env : Env V) (nested : ℕ → Json → Dataset V → Outcome (Status × Dataset V))
    (g : ℕ) (i : ℤ) (json : Json) (ds : Dataset V) : Outcome (Status × Dataset V) := do
  let grid ← ds.grid g
  let cell ← grid.cell i
  eassert .cellEntry (cell.fragment = none ∨ cell.subgrid = none)
  match cell.fragment, cell.subgrid with
  | some _, _ => return (.success, ds)
  | none, some h =>
    let subgrid ← ds.grid h
    if subgrid.emptyCells = 0 then return (.success, ds)
    else
      match json.members?, json.get "subgrid" with
      | none, _ => return (.invalidDataError, ds)
      | some _, none => return (.success, ds)
      | some _, some json =>
        match json.members? with
        | none => return (.invalidDataError, ds)
        | some _ => nested h json ds
  | none, none =>
    match json.members?, json.get "fragment" with
    | none, _ => return (.invalidDataError, ds)
    | some _, none => return (.success, ds)
    | some _, some json =>
      match json.members? with
      | none => return (.invalidDataError, ds)
      | some _ =>
        match ds.createFragmentFromMetadata env json with
        | (ds, none) => return (.invalidDataError, ds)
        | (ds, some r) =>
          let ds ← ds.fillCell g i r
          return (.success, ds)

/-- The cells from the given index on. -/
def mergeCells (env : Env V) (nested : ℕ → Json → Dataset V → Outcome (Status × Dataset V))
    (g : ℕ) : ℕ → List Json → Dataset V → Outcome (Status × Dataset V)
  | _, [], ds => .ok (.success, ds)
  | i, json :: rest, ds => do
    match ← mergeCell env nested g i json ds with
    | (.success, ds) => mergeCells env nested g (i + 1) rest ds
    | (status, ds) => return (status, ds)

/-- `esdmI_grid_mergeWithJson` -/
def gridMergeWithJson (env : Env V) : ℕ → ℕ → Json → Dataset V → Outcome (Status × Dataset V)
  | 0, _, _, _ => .error .fuel
  | depth + 1, g, json, ds => do
    let grid ← ds.grid g
    eassert .gridId (grid.id ≠ none)
    eassert .gridAllocated (grid.cells ≠ none)
    match json.get "id" >>= Json.str? with
    | none => return (.invalidDataError, ds)
    | some id =>
      if grid.id ≠ some id then return (.invalidStateError, ds)
      else
        match json.get "grid" >>= Json.elements? with
        | none => return (.invalidDataError, ds)
        | some cells =>
          if (cells.length : ℤ) ≠ grid.cellCount then return (.invalidDataError, ds)
          else mergeCells env (gridMergeWithJson env depth) g 0 cells ds

/-- `esdmI_grid_mergeWithString`, of a text that has been parsed. -/
def gridMergeWithString (env : Env V) (g : ℕ) (json : Json) (ds : Dataset V) :
    Outcome (Status × Dataset V) :=
  gridMergeWithJson env (json.depth + 1) g json ds

end Merge

end Dataset

end Esdm
