import Esdm.Proofs.Invariants

/-!
# The counters never run below zero

`esdmI_grid_registerCompletedCell` asserts that the grid's counter is positive.  Nothing else raises
this assertion, and under the invariant the function is only called where it holds, so that no call
fails on it (`step_counts`).
-/

namespace Esdm

variable {V α β : Type}

/-- The outcome is not the failed assertion on a grid's counter. -/
def Outcome.Counts (x : Outcome α) : Prop := x ≠ .error (.assertion .emptyCells)

open Outcome

namespace Outcome

@[simp] theorem counts_ok (a : α) : Counts (.ok a) := by simp [Counts]

@[simp] theorem counts_error {e : Fault} :
    Counts (.error e : Outcome α) ↔ e ≠ .assertion .emptyCells := by
  simp [Counts]

@[simp] theorem counts_bind {x : Outcome α} {f : α → Outcome β} :
    Counts (x >>= f) ↔ Counts x ∧ ∀ a, x = .ok a → Counts (f a) := by
  cases x <;> simp [Counts]

@[simp] theorem counts_eassert {a : Assertion} {p : Prop} [Decidable p] :
    Counts (eassert a p) ↔ (a = .emptyCells → p) := by
  unfold eassert
  split_ifs with h <;> simp [h]

@[simp] theorem counts_access {o : Option α} : Counts (access o) := by
  cases o <;> simp

@[simp] theorem counts_ite {p : Prop} [Decidable p] {x y : Outcome α} :
    Counts (if p then x else y) ↔ (p → Counts x) ∧ (¬ p → Counts y) := by
  split_ifs with h <;> simp [h]

end Outcome

section Copy

@[simp] theorem copyInstructions_counts (source dest : Dataspace) :
    Counts (copyInstructions source dest) := by
  unfold copyInstructions
  refine counts_bind.2 ⟨by simp, fun _ _ => ?_⟩
  split <;> simp

@[simp] theorem copyChunks_counts (convert : V → V) (loops : List CopyLoop) (chunkSize : ℤ)
    (source : Mem V) : ∀ (fuel : ℕ) (counters : List ℕ) (p : ℤ × ℤ) (dest : Mem V),
    Counts (copyChunks convert loops chunkSize source fuel counters p dest)
  | 0, _, _, _ => by simp [copyChunks]
  | fuel + 1, counters, p, dest => by
    rw [copyChunks]
    split
    · simp
    · exact copyChunks_counts convert loops chunkSize source fuel _ _ _

@[simp] theorem copyData_counts (cast : BasicType → BasicType → V → V) (sourceSpace : Dataspace)
    (source : Mem V) (destSpace : Dataspace) (dest : Mem V) :
    Counts (copyData cast sourceSpace source destSpace dest) := by
  unfold copyData
  refine counts_bind.2 ⟨by simp, fun _ _ => ?_⟩
  split
  · simp
  · refine counts_bind.2 ⟨by simp, fun i _ => ?_⟩
    rcases i with _ | i <;> simp

end Copy

namespace Fragment

variable (env : Env V) (f : Fragment V) (user : Mem V)

@[simp] theorem pack_counts : Counts (f.pack env user) := by
  unfold pack
  refine counts_bind.2 ⟨by simp, fun _ _ => counts_ite.2 ⟨fun _ => by simp, fun _ => ?_⟩⟩
  split <;> simp

@[simp] theorem unpack_counts (stored : Mem V) : Counts (f.unpack env user stored) := by
  unfold unpack
  refine counts_bind.2 ⟨by simp, fun _ _ => counts_ite.2 ⟨fun _ => by simp, fun _ => ?_⟩⟩
  split <;> simp

@[simp] theorem commit_counts : Counts (f.commit env user) := by
  unfold commit
  refine counts_bind.2 ⟨by simp, fun _ _ => ?_⟩
  split <;> simp

@[simp] theorem load_counts : Counts (f.load env user) := by
  unfold load retrieve
  refine counts_ite.2 ⟨fun _ => by simp, fun _ => ?_⟩
  split <;> try simp
  split <;> try simp
  split <;> simp

@[simp] theorem unload_counts : Counts (f.unload env user) := by
  unfold unload
  split <;> try simp
  intro ret f' _
  cases ret <;> simp

end Fragment

section Split

variable (env : SplitEnv) (space : Dataspace)

@[simp] theorem makeSplitRecommendation_counts (backend : Backend) :
    Counts (makeSplitRecommendation env space backend) := by
  unfold makeSplitRecommendation balancedDims contiguousFragments
  split
  · simp
  · refine counts_ite.2 ⟨fun _ => by simp, fun _ => ?_⟩
    dsimp only
    split <;> simp

theorem backendSlots_counts (ext : Hypercube) (dimension : ℕ) : ∀ (valid : Bool) (bounds : List ℤ),
    Counts (backendSlots ext dimension valid bounds)
  | _, [] => by simp [backendSlots]
  | _, [_] => by simp [backendSlots]
  | valid, a :: b :: bounds => by
    simp [backendSlots, backendSlots_counts ext dimension _ (b :: bounds)]

@[simp] theorem splitToBackends_counts : Counts (splitToBackends env space) := by
  unfold splitToBackends
  refine counts_bind.2 ⟨by simp, fun _ _ => ?_⟩
  split <;> simp [backendSlots_counts]

end Split

section Axes

variable (axis : Axis)

@[simp] theorem Axis.bound_counts (i : ℤ) : Counts (axis.bound i) := by
  simp [bound]

@[simp] theorem Axis.search_counts (location : ℤ) : ∀ (fuel : ℕ) (startIndex endIndex : ℤ),
    Counts (axis.search location fuel startIndex endIndex)
  | 0, _, _ => by simp [search]
  | fuel + 1, _, _ => by simp [search, search_counts location fuel]

@[simp] theorem Axis.findInterval_counts (location : ℤ) : Counts (axis.findInterval location) := by
  simp [findInterval]

@[simp] theorem Grid.findCell_counts : ∀ (axes : List Axis) (dim : List Dim) (tooSmall : Bool),
    Counts (Grid.findCell axes dim tooSmall)
  | [], _, _ => by simp [findCell]
  | _ :: _, [], _ => by simp [findCell]
  | axis :: axes, d :: dim, _ => by
    simp [findCell, Axis.matchInterval, findCell_counts axes dim]

@[simp] theorem Grid.cellSize_counts : ∀ (axes : List Axis) (index : List ℤ),
    Counts (Grid.cellSize axes index)
  | [], _ => by simp [cellSize]
  | _ :: _, [] => by simp [cellSize]
  | _ :: axes, _ :: index => by simp [cellSize, cellSize_counts axes index]

@[simp] theorem Grid.coverAndFetchedSize_counts : ∀ (axes : List Axis) (region : Hypercube),
    Counts (Grid.coverAndFetchedSize axes region)
  | [], _ => by simp [coverAndFetchedSize]
  | _ :: _, [] => by simp [coverAndFetchedSize]
  | _ :: axes, _ :: region => by
    simp [coverAndFetchedSize, coverAndFetchedSize_counts axes region]

@[simp] theorem Grid.indexRange_counts : ∀ (axes : List Axis) (region : Hypercube),
    Counts (Grid.indexRange axes region)
  | [], _ => by simp [indexRange]
  | _ :: _, [] => by simp [indexRange]
  | _ :: axes, _ :: region => by simp [indexRange, indexRange_counts axes region]

@[simp] theorem Grid.ensureGrid_counts (grid : Grid) : Counts grid.ensureGrid := by
  unfold ensureGrid
  split <;> simp

@[simp] theorem Grid.cell_counts (grid : Grid) (i : ℤ) : Counts (grid.cell i) := by
  simp [cell]

theorem Grid.walkCells_counts {visit : ℤ → Outcome (Status × List ℕ)}
    (hv : ∀ i, Counts (visit i)) (dims : List WalkDim) : ∀ (fuel : ℕ) (curIndex : List ℤ) (i : ℤ),
    Counts (Grid.walkCells visit dims fuel curIndex i)
  | 0, _, _ => by simp [walkCells]
  | fuel + 1, curIndex, i => by
    rw [walkCells]
    refine counts_bind.2 ⟨hv i, fun x _ => ?_⟩
    split
    · split
      · simp
      · simp [walkCells_counts hv dims fuel]
    · simp

end Axes

namespace Dataset

variable (env : Env V) (ds : Dataset V)

@[simp] theorem fragment_counts (r : ℕ) : Counts (ds.fragment r) := by
  simp [fragment]

@[simp] theorem grid_counts (g : ℕ) : Counts (ds.grid g) := counts_access

section Coverage

variable (region : Hypercube)

@[simp] theorem subtractFragments_counts : ∀ (fragments : List ℕ) (uncovered : HypercubeSet),
    Counts (ds.subtractFragments uncovered fragments)
  | [], _ => by simp [subtractFragments]
  | _ :: fragments, _ => by simp [subtractFragments, subtractFragments_counts fragments]

theorem bestGrid_counts : ∀ (grids : List ℕ) (best : Option ℕ) (overhead : ℤ),
    Counts (ds.bestGrid region grids best overhead)
  | [], _, _ => by simp [bestGrid]
  | _ :: grids, _, _ => by
    simp [bestGrid, Grid.coverRegionSize, Grid.coverRegionOverhead, bestGrid_counts grids]

theorem fragmentsInRegionInternal_counts : ∀ depth g : ℕ,
    Counts (ds.fragmentsInRegionInternal region depth g)
  | 0, _ => by simp [fragmentsInRegionInternal]
  | depth + 1, g => by
    rw [fragmentsInRegionInternal]
    simp only [counts_bind, grid_counts, counts_eassert, Grid.indexRange_counts, reduceCtorEq,
      false_implies, true_and]
    intro grid _ _ _ dims _ _ _ _ _
    refine Grid.walkCells_counts (fun i => ?_) _ _ _ _
    refine counts_bind.2 ⟨by simp, fun cell _ => ?_⟩
    split
    · simp
    · exact fragmentsInRegionInternal_counts depth _
    · simp

@[simp] theorem fragmentsCoveringRegion_counts :
    Counts (ds.fragmentsCoveringRegion env region) := by
  unfold fragmentsCoveringRegion gridCoveringRegion fragmentsInRegion
  refine counts_bind.2 ⟨ds.bestGrid_counts region _ _ _, fun g _ => ?_⟩
  rcases g with _ | g
  · simp [fragmentsCoverRegion]
  · refine counts_bind.2 ⟨by simp [fragmentsInRegionInternal_counts], fun x _ => ?_⟩
    split <;> simp

end Coverage

section Io

variable (user : Mem V) (space : Dataspace)

@[simp] theorem fragmentChecks_counts : ∀ dim sdim : List Dim, Counts (fragmentChecks dim sdim)
  | [], _ => by simp [fragmentChecks]
  | _ :: _, [] => by simp [fragmentChecks]
  | _ :: dim, _ :: sdim => by simp [fragmentChecks, fragmentChecks_counts dim sdim]

@[simp] theorem createFragment_counts (buf : Option (Buf V)) :
    Counts (ds.createFragment space buf) := by
  unfold createFragment fragmentCreate registerFragment fragmentsAdd
  split
  · simp
  · simp only [counts_bind, fragmentChecks_counts, fragment_counts, counts_eassert, counts_ok,
      Outcome.pure_eq, reduceCtorEq, false_implies, true_and, implies_true, and_true]
    intro ds₁ _
    refine ⟨fun f _ => ?_, fun x _ => ?_⟩
    · split <;> simp
    · split <;> simp

@[simp] theorem writeFragmentNonblocking_counts (r : ℕ) (status : Status) :
    Counts (ds.writeFragmentNonblocking env r user status) := by
  unfold writeFragmentNonblocking
  refine counts_bind.2 ⟨by simp, fun f _ => counts_bind.2 ⟨by simp, fun x _ => ?_⟩⟩
  split <;> simp

@[simp] theorem subspaceOf_counts (cube : Hypercube) : Counts (subspaceOf cube space) := by
  unfold subspaceOf Dataspace.copyDatalayout
  split_ifs <;> simp

@[simp] theorem writeCubes_counts (backend : Backend) : ∀ (cubes : HypercubeSet) (status : Status)
    (ds : Dataset V), Counts (writeCubes env space user backend cubes status ds)
  | [], _, _ => by simp [writeCubes]
  | _ :: cubes, _, _ => by simp [writeCubes, writeCubes_counts backend cubes]

@[simp] theorem writeSlots_counts : ∀ (slots : List (Backend × Slot)) (status : Status)
    (ds : Dataset V), Counts (writeSlots env space user slots status ds)
  | [], _, _ => by simp [writeSlots]
  | (_, .uninitialized) :: _, _, _ => by simp [writeSlots]
  | (_, .null) :: slots, _, _ => by simp [writeSlots, writeSlots_counts slots]
  | (_, .cube _) :: slots, _, _ => by simp [writeSlots, writeSlots_counts slots]

@[simp] theorem writeBlocking_counts : Counts (ds.writeBlocking env user space) := by
  simp [writeBlocking, enqueueWrite]

@[simp] theorem readFragment_counts (f : Fragment V) :
    Counts (readFragment env f user space) := by
  unfold readFragment tryDirectIo
  refine counts_bind.2 ⟨?_, fun x _ => counts_bind.2 ⟨by simp, fun _ _ =>
    counts_bind.2 ⟨by simp, fun y _ => ?_⟩⟩⟩
  · refine counts_ite.2 ⟨fun _ => by simp, fun _ => counts_bind.2 ⟨by simp, fun i _ => ?_⟩⟩
    rcases i with _ | i <;> simp
  · split <;> simp

@[simp] theorem enqueueRead_counts : ∀ (fragments : List ℕ) (status : Status) (user : Mem V)
    (ds : Dataset V), Counts (enqueueRead env space fragments status user ds)
  | [], _, _, _ => by simp [enqueueRead]
  | _ :: fragments, _, _, _ => by simp [enqueueRead, enqueueRead_counts fragments]

@[simp] theorem enqueueFill_counts (fillValue : V) : ∀ (fillRegion : HypercubeSet) (user : Mem V),
    Counts (enqueueFill env fillValue space fillRegion user)
  | [], _ => by simp [enqueueFill]
  | _ :: fillRegion, _ => by simp [enqueueFill, enqueueFill_counts fillValue fillRegion]

@[simp] theorem ioBytes_counts : ∀ fragments : List ℕ, Counts (ds.ioBytes fragments)
  | [] => by simp [ioBytes]
  | _ :: fragments => by simp [ioBytes, ioBytes_counts fragments]

@[simp] theorem readBlocking_counts (allowWriteback : Bool) :
    Counts (ds.readBlocking env user space allowWriteback) := by
  unfold readBlocking fillHoles
  refine counts_bind.2 ⟨by simp, fun covering _ => counts_bind.2 ⟨?_, fun x _ => ?_⟩⟩
  · refine counts_ite.2 ⟨fun _ => by simp, fun _ => counts_bind.2 ⟨by simp, fun _ _ => ?_⟩⟩
    split <;> simp
  · split <;> simp

end Io

section Grids

@[simp] theorem gridCreateInternal_counts (parent : Option ℕ) (dim : List Dim) :
    Counts (ds.gridCreateInternal parent dim) := by
  simp [gridCreateInternal]

@[simp] theorem gridCreateSubgrid_counts (g : ℕ) (index : List ℤ) :
    Counts (ds.gridCreateSubgrid g index) := by
  unfold gridCreateSubgrid
  refine counts_bind.2 ⟨by simp, fun grid _ => ?_⟩
  refine counts_ite.2 ⟨fun _ => by simp, fun _ => counts_ite.2 ⟨fun _ => by simp, fun _ => ?_⟩⟩
  refine counts_bind.2 ⟨by simp, fun grid _ => counts_bind.2 ⟨by simp, fun cell _ => ?_⟩⟩
  refine counts_ite.2 ⟨fun _ => by simp, fun _ => counts_bind.2 ⟨by simp, fun dim _ => ?_⟩⟩
  rcases dim with _ | dim <;> simp

theorem gridSubdivideWith_counts (g : ℕ) (dim : ℤ) {subdivide : Axis → Outcome (Status × Axis)}
    (hs : ∀ axis, Counts (subdivide axis)) : Counts (ds.gridSubdivideWith g dim subdivide) := by
  simp [gridSubdivideWith, hs]

@[simp] theorem metadataCreate_counts (f : Fragment V) : Counts f.metadataCreate := by
  unfold Fragment.metadataCreate
  refine counts_bind.2 ⟨by simp, fun _ _ => ?_⟩
  split <;> simp

theorem serializeCells_counts {nested : ℕ → Dataset V → Outcome (Dataset V × Json)}
    (hn : ∀ h ds, Counts (nested h ds)) : ∀ (cells : List GridEntry) (ds : Dataset V),
    Counts (serializeCells nested cells ds)
  | [], _ => by simp [serializeCells]
  | cell :: cells, ds => by
    rw [serializeCells]
    refine counts_bind.2 ⟨?_, fun x _ => by simp [serializeCells_counts hn cells]⟩
    unfold serializeCell
    refine counts_bind.2 ⟨by simp, fun _ _ => ?_⟩
    split <;> simp [hn]

theorem gridSerialize_counts : ∀ (depth g : ℕ) (ds : Dataset V),
    Counts (gridSerialize env depth g ds)
  | 0, _, _ => by simp [gridSerialize]
  | depth + 1, g, ds => by
    simp [gridSerialize, fixStructure, serializeCells_counts (gridSerialize_counts depth)]

@[simp] theorem findCellInHierarchy_counts (space : Dataspace) : ∀ (depth g : ℕ) (ds : Dataset V),
    Counts (findCellInHierarchy space depth g ds)
  | 0, _, _ => by simp [findCellInHierarchy]
  | depth + 1, g, ds => by
    rw [findCellInHierarchy]
    refine counts_bind.2 ⟨by simp, fun grid _ => counts_bind.2 ⟨by simp, fun x _ => ?_⟩⟩
    split
    · simp
    · refine counts_bind.2 ⟨by simp, fun _ _ => counts_ite.2 ⟨fun _ => by simp, fun _ => ?_⟩⟩
      refine counts_bind.2 ⟨by simp, fun _ _ => counts_bind.2 ⟨by simp, fun cell _ => ?_⟩⟩
      split
      · exact findCellInHierarchy_counts space depth _ _
      · simp

end Grids

section Fill

variable {env ds} {g i : ℕ} {grid : Grid} {cs : List GridEntry} {index : List ℤ}
  {space : Dataspace}

/-- Where the counters are right, an empty cell can be counted. -/
theorem Fits.fillCell_counts (hI : GridInv none ds)
    (hF : Fits ds space g i grid cs ⟨none, none⟩ index) (r : ℕ) : Counts (ds.fillCell g i r) := by
  obtain ⟨ds', h, -⟩ := fillCell_spec hI hF.heap hF.cells hF.cell r
  simp [h]

theorem allocates_gridInv {ds ds' : Dataset V} (h : Relation.ReflTransGen Allocates ds ds')
    (hI : GridInv none ds) : GridInv none ds' := by
  induction h with
  | refl => exact hI
  | tail _ hs ih =>
    obtain ⟨g, grid, grid', hg, he, rfl⟩ := hs
    have hstep : GridStep (fun _ => False) (fun _ _ => False) _ _ := .allocate hg he
    exact hstep.gridInv ih

theorem writeGrid_counts (hI : GridInv none ds) (g : ℕ) (user : Mem V) (space : Dataspace) :
    Counts (ds.writeGrid env g user space) := by
  unfold writeGrid
  refine counts_bind.2 ⟨by simp, fun _ _ => counts_ite.2 ⟨fun _ => by simp, fun _ => ?_⟩⟩
  refine counts_bind.2 ⟨by simp, fun ⟨ds₁, found⟩ hfind => ?_⟩
  obtain ⟨hal, hfits⟩ := findCellInHierarchy_eq_ok hfind
  have hI₁ := allocates_gridInv hal hI
  rcases found with _ | ⟨k, j⟩
  · simp
  obtain ⟨i, grid, cs, c, index, rfl, hF⟩ := hfits k j rfl
  have hcell : grid.cell i = .ok c := Grid.cell_eq_ok.2 ⟨by omega, cs, hF.cells, hF.cell⟩
  simp only [grid_eq_ok.2 hF.heap, hcell, Outcome.ok_bind]
  refine counts_ite.2 ⟨fun _ => by simp, fun hfrag => ?_⟩
  obtain rfl : c = ⟨none, none⟩ := by
    cases c
    exact GridEntry.mk.injEq .. ▸ ⟨hF.subgrid, not_not.1 hfrag⟩
  split
  · exact counts_bind.2 ⟨hF.fillCell_counts hI₁ _, fun _ _ => by simp⟩
  · refine counts_bind.2 ⟨by simp, fun ⟨ds₂, r, isNew⟩ hc => ?_⟩
    obtain ⟨rfl, rfl, -⟩ | ⟨rfl, rfl, rfl, -⟩ := createFragment_eq_ok hc
    · exact counts_bind.2 ⟨hF.fillCell_counts hI₁ _, fun _ _ => by simp⟩
    · refine counts_bind.2 ⟨(hF.created space _).fillCell_counts (hI₁.congr ?_) _, fun _ _ => ?_⟩
      · exact ⟨rfl, rfl, rfl, rfl, rfl⟩
      · simp [writeFragmentBlocking]

theorem readEmptyCell_counts (hI : GridInv none ds) (hs : ∀ d ∈ space.dim, 0 < d.size)
    (hF : Fits ds space g i grid cs ⟨none, none⟩ index) (user : Mem V) :
    Counts (ds.readEmptyCell env g i user space) := by
  unfold readEmptyCell
  refine counts_bind.2 ⟨by simp, fun ⟨ret, user₁, ds₁⟩ hr => ?_⟩
  obtain ⟨covering, -, hio⟩ := readBlocking_steps hs hr
  have hsame := hio.sameGrids
  have hI₁ := hI.congr hsame
  have hF₁ : Fits ds₁ space g i grid cs ⟨none, none⟩ index :=
    ⟨hsame.gridHeap ▸ hF.heap, hF.cells, hF.cell, hF.subgrid, hF.found, hF.index⟩
  split
  · rename_i heq
    obtain ⟨rfl, rfl, rfl⟩ := Prod.mk.inj heq
    refine counts_bind.2 ⟨by simp, fun ⟨ds₂, r, isNew⟩ hc => ?_⟩
    obtain ⟨rfl, rfl, -⟩ | ⟨rfl, rfl, rfl, -⟩ := createFragment_eq_ok hc
    · exact counts_bind.2 ⟨hF₁.fillCell_counts hI₁ _, fun _ _ => by simp⟩
    · refine counts_bind.2 ⟨(hF₁.created space _).fillCell_counts (hI₁.congr ?_) _, fun _ _ => ?_⟩
      · exact ⟨rfl, rfl, rfl, rfl, rfl⟩
      · simp [writeFragmentBlocking]
  · simp

theorem readGrid_counts (hI : GridInv none ds) (hs : ∀ d ∈ space.dim, 0 < d.size) (g : ℕ)
    (user : Mem V) : Counts (ds.readGrid env g user space) := by
  unfold readGrid readSingleFragmentBlocking
  refine counts_bind.2 ⟨by simp, fun _ _ => counts_ite.2 ⟨fun _ => by simp, fun _ => ?_⟩⟩
  refine counts_bind.2 ⟨by simp, fun ⟨ds₁, found⟩ hfind => ?_⟩
  obtain ⟨hal, hfits⟩ := findCellInHierarchy_eq_ok hfind
  have hI₁ := allocates_gridInv hal hI
  rcases found with _ | ⟨k, j⟩
  · simp
  obtain ⟨i, grid, cs, c, index, rfl, hF⟩ := hfits k j rfl
  have hcell : grid.cell i = .ok c := Grid.cell_eq_ok.2 ⟨by omega, cs, hF.cells, hF.cell⟩
  simp only [grid_eq_ok.2 hF.heap, hcell, Outcome.ok_bind]
  rcases hfrag : c.fragment with _ | r
  · obtain rfl : c = ⟨none, none⟩ := by
      cases c
      exact GridEntry.mk.injEq .. ▸ ⟨hF.subgrid, hfrag⟩
    dsimp only
    split
    · exact counts_bind.2 ⟨hF.fillCell_counts hI₁ _, fun _ _ => by simp⟩
    · exact readEmptyCell_counts hI₁ hs hF user
  · simp

end Fill

/-- No call fails on a counter. -/
theorem step_counts {ds : Dataset V} (hI : Inv ds) (c : Call V) : Counts (ds.step c) := by
  obtain ⟨env, op⟩ := c
  have hret : ∀ {x : Outcome (Status × Dataset V)}, Counts x → Counts (returns x) := fun h => by
    simp [returns, h]
  have hbuf : ∀ {x : Outcome (Status × Mem V × Dataset V)}, Counts x → Counts (returnsBuffer x) :=
    fun h => by simp [returnsBuffer, h]
  cases op with
  | write space buf => exact counts_bind.2 ⟨by simp, fun _ _ => hret (by simp)⟩
  | read space buf => exact counts_bind.2 ⟨by simp, fun _ _ => hbuf (by simp)⟩
  | setFillValue value => exact hret (by simp)
  | gridCreate dim => exact hret (by simp [gridCreate])
  | gridCreateSubgrid g index => exact counts_bind.2 ⟨by simp, fun _ _ => hret (by simp)⟩
  | gridSubdivideFixed g dim size allowIncomplete =>
    exact hret (gridSubdivideWith_counts _ _ _ fun axis => by simp [Axis.subdivideFixed])
  | gridSubdivideFlexible g dim count =>
    exact hret (gridSubdivideWith_counts _ _ _ fun axis => by simp [Axis.subdivideFlexible])
  | gridSubdivide g dim bounds =>
    exact hret (counts_bind.2 ⟨by simp, fun _ _ =>
      gridSubdivideWith_counts _ _ _ fun axis => by simp [Axis.subdivide]⟩)
  | gridSerialize g =>
    exact counts_bind.2 ⟨gridSerialize_counts _ _ _ _, fun _ _ => hret (by simp)⟩
  | writeGrid g space buf =>
    exact counts_bind.2 ⟨by simp, fun _ _ => hret (writeGrid_counts hI.grids _ _ _)⟩
  | readGrid g space buf =>
    exact counts_bind.2 ⟨by simp, fun _ _ => hbuf (readGrid_counts hI.grids space.size_pos _ _)⟩

theorem run_counts : ∀ {calls : List (Call V)} {ds : Dataset V}, Inv ds → Counts (ds.run calls)
  | [], _, _ => by simp [run]
  | c :: _, _, hI => counts_bind.2 ⟨step_counts hI c, fun _ h => run_counts (step_inv hI h).1⟩

end Dataset

end Esdm
