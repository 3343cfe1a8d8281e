import Esdm.Lib.Odometer
import Esdm.Dataset

/-!
# Which fragments cover a region

`esdmI_dataset_fragmentsCoveringRegion` and what it calls.  If a complete grid encloses the
region, the fragments are collected from the grid's cells; otherwise they are looked up in the
fragment table, and what they leave uncovered is computed by repeated subtraction.
-/

namespace Esdm

variable {V : Type}

namespace Grid

/-- `esdmI_grid_coverRegionSize` -/
def coverRegionSize (grid : Grid) (region : Hypercube) : Outcome ℤ := do
  eassert .dims (region.length = grid.dimCount)
  return (List.zipWith (fun axis r => max 0
    (min (r.start + r.size) axis.outerStop - max r.start axis.outerStart)) grid.axes region).prod

/-- The two sizes `esdmI_grid_coverRegionOverhead` computes: that of the covered part of the
region, and that of the cells which have to be fetched for it. -/
def coverAndFetchedSize : List Axis → Hypercube → Outcome (ℤ × ℤ)
  | axis :: axes, r :: region => do
    let start := max r.start axis.outerStart
    let stop := min (r.start + r.size) axis.outerStop
    let startInterval ← axis.findInterval start
    eassert .regionInterval (startInterval ≥ 0)
    let endInterval ← axis.findInterval (stop - 1)
    eassert .regionInterval (endInterval ≥ 0)
    let first ← axis.bound startInterval
    let last ← axis.bound (endInterval + 1)
    let (cover, fetched) ← coverAndFetchedSize axes region
    return (max 0 (stop - start) * cover, (last - first) * fetched)
  | _, _ => .ok (1, 1)

/-- `esdmI_grid_coverRegionOverhead` -/
def coverRegionOverhead (grid : Grid) (region : Hypercube) : Outcome ℤ := do
  eassert .dims (region.length = grid.dimCount)
  let (cover, fetched) ← coverAndFetchedSize grid.axes region
  return fetched - cover

/-- What the walk over a region's cells knows about one dimension. -/
structure WalkDim where
  intervals : ℤ
  startIndex : ℤ
  endIndex : ℤ
  deriving DecidableEq, Repr

/-- `esdmI_grid_indexRange`: the cells that overlap the region, clipped to the domain. -/
def indexRange : List Axis → Hypercube → Outcome (List WalkDim)
  | axis :: axes, r :: region => do
    let start := min (max r.start axis.outerStart) axis.outerStop
    let stop := min (max (r.start + r.size) axis.outerStart) axis.outerStop
    let startIndex ← axis.findInterval start
    let endIndex ← axis.findInterval (stop - 1)
    let dims ← indexRange axes region
    return ⟨axis.intervals, startIndex, endIndex + 1⟩ :: dims
  | _, _ => .ok []

/-- Move `curIndex` to the next cell: whether there is one, the new index, by how much the linear
index changes, and the number of cells below the dimensions that have been looked at. -/
def nextCell : List WalkDim → List ℤ → Bool × List ℤ × ℤ × ℤ
  | d :: dims, c :: curIndex =>
    match nextCell dims curIndex with
    | (true, curIndex', delta, increment) => (true, c :: curIndex', delta, increment)
    | (false, curIndex', delta, increment) =>
      if c + 1 ≠ d.endIndex then
        (true, (c + 1) :: curIndex', delta + increment, increment * d.intervals)
      else
        (false, d.startIndex :: curIndex',
          delta + increment - (c + 1 - d.startIndex) * increment, increment * d.intervals)
  | _, curIndex => (false, curIndex, 0, 1)

/-- The loop of `esdmI_grid_fragmentsInRegion_internal`: visit cell after cell until one fails. -/
def walkCells (visit : ℤ → Outcome (Status × List ℕ)) (dims : List WalkDim) :
    ℕ → List ℤ → ℤ → Outcome (Status × List ℕ)
  | 0, _, _ => .error .fuel
  | fuel + 1, curIndex, linearIndex => do
    match ← visit linearIndex with
    | (.success, found) =>
      match nextCell dims curIndex with
      | (false, _, _, _) => return (.success, found)
      | (true, curIndex, delta, _) =>
        let (status, more) ← walkCells visit dims fuel curIndex (linearIndex + delta)
        return (status, found ++ more)
    | (status, found) => return (status, found)

end Grid

namespace Dataset

section Table

/-- `esdmI_fragments_makeSetCoveringRegion` -/
def makeSetCoveringRegion (env : Env V) (ds : Dataset V) (bounds : Hypercube) : List ℕ :=
  match ds.lookupForShape bounds with
  | some r => [r]
  | none =>
    ((env.order ds.table).filter fun e => Hypercube.overlap e.1 bounds ≠ 0).map Prod.snd

/-- Subtract the fragments' extents one after another. -/
def subtractFragments (ds : Dataset V) : HypercubeSet → List ℕ → Outcome HypercubeSet
  | uncovered, [] => .ok uncovered
  | uncovered, r :: fragments => do
    let f ← ds.fragment r
    ds.subtractFragments (HypercubeSet.subtract uncovered f.shape) fragments

/-- `fragmentsCoverRegion` -/
def fragmentsCoverRegion (ds : Dataset V) (region : Hypercube) (fragments : List ℕ) :
    Outcome (Bool × HypercubeSet) := do
  if fragments = [] then return (false, [region])
  else
    let uncovered ← ds.subtractFragments [region] fragments
    return HypercubeSet.isEmpty uncovered

end Table

section Grids

/-- The loop of `esdmI_dataset_gridCoveringRegion`: the last one of the grids with the smallest
overhead, of those that enclose the region. -/
def bestGrid (ds : Dataset V) (region : Hypercube) :
    List ℕ → Option ℕ → ℤ → Outcome (Option ℕ)
  | [], best, _ => .ok best
  | g :: grids, best, smallestOverhead => do
    let grid ← ds.grid g
    let coverage ← grid.coverRegionSize region
    if coverage = Hypercube.size region then
      let overhead ← grid.coverRegionOverhead region
      if overhead ≤ smallestOverhead then ds.bestGrid region grids (some g) overhead
      else ds.bestGrid region grids best smallestOverhead
    else ds.bestGrid region grids best smallestOverhead

/-- `esdmI_dataset_gridCoveringRegion` -/
def gridCoveringRegion (ds : Dataset V) (region : Hypercube) : Outcome (Option ℕ) :=
  ds.bestGrid region (ds.grids.take ds.gridCount) none 0x7fffffffffffffff

/-- `esdmI_grid_fragmentsInRegion_internal`.  The first argument bounds the nesting. -/
def fragmentsInRegionInternal (ds : Dataset V) (region : Hypercube) :
    ℕ → ℕ → Outcome (Status × List ℕ)
  | 0, _ => .error .fuel
  | depth + 1, g => do
    let grid ← ds.grid g
    eassert .dims (grid.dimCount = region.length)
    let dims ← Grid.indexRange grid.axes region
    eassert .regionInterval (∃ d ∈ dims, d.startIndex ≠ d.endIndex)
    let startIndex := dims.map Grid.WalkDim.startIndex
    let linearIndex := grid.linearIndex startIndex
    eassert .cellIndex (0 ≤ linearIndex)
    let visit := fun i => do
      let cell ← grid.cell i
      match cell.fragment, cell.subgrid with
      | some r, _ => return (.success, [r])
      | none, some h => fragmentsInRegionInternal ds region depth h
      | none, none => return (.invalidStateError, [])
    Grid.walkCells visit dims (Odometer.count (dims.map fun d => (d.endIndex - d.startIndex).toNat))
      startIndex linearIndex

/-- `esdmI_grid_fragmentsInRegion` -/
def fragmentsInRegion (ds : Dataset V) (g : ℕ) (region : Hypercube) :
    Outcome (Status × List ℕ) := do
  let grid ← ds.grid g
  eassert .gridAllocated (grid.cells ≠ none)
  ds.fragmentsInRegionInternal region ds.gridHeap.length g

end Grids

/-- What `esdmI_dataset_fragmentsCoveringRegion` returns. -/
structure Covering where
  fragments : List ℕ
  uncovered : HypercubeSet
  fullyCovered : Bool
  deriving DecidableEq, Repr

/-- `esdmI_dataset_fragmentsCoveringRegion`.  It drops the status of the walk through the grid,
so after a failed walk the caller would read uninitialised variables. -/
def fragmentsCoveringRegion (env : Env V) (ds : Dataset V) (region : Hypercube) :
    Outcome Covering := do
  match ← ds.gridCoveringRegion region with
  | some g =>
    match ← ds.fragmentsInRegion g region with
    | (.success, fragments) => return ⟨fragments, [], true⟩
    | _ => .error .undefined
  | none =>
    let fragments := ds.makeSetCoveringRegion env region
    let (fullyCovered, uncovered) ← ds.fragmentsCoverRegion region fragments
    return ⟨fragments, uncovered, fullyCovered⟩

end Dataset

end Esdm
