import Esdm.Proofs.Coverage

/-!
# What a read leaves behind

Reads create fragments, too.  `esdm_read` writes back only what is covered by fragments already;
`esdm_read_grid` makes a fragment of everything it has read, the fill value in the holes included
(`read_keepsHoles_iff`).
-/

namespace Esdm

variable {V : Type}

def Op.IsRead : Op V → Prop
  | .read _ _ | .readGrid _ _ _ => True
  | _ => False

namespace Dataset

variable {ds ds' : Dataset V} {env : Env V} {user user' : Mem V} {space : Dataspace} {g : ℕ}
  {P : Dataspace → Prop} {S : Axis → Axis → Prop}

/-- The cell of a grid holds a fragment. -/
def Filled (ds : Dataset V) (g : ℕ) (index : List ℤ) : Prop :=
  ∃ grid c, ds.gridHeap[g]? = some grid ∧ grid.cell (grid.linearIndex index) = .ok c
    ∧ c.fragment ≠ none

/-- The holes of a dataset are holes still: the fragments cover the same points, and a cell has
been filled only if all of its points were covered. -/
structure KeepsHoles (ds ds' : Dataset V) : Prop where
  covered : ds'.covered = ds.covered
  cells : ∀ g grid index cube, ds'.gridHeap[g]? = some grid → Grid.IsCell grid.axes index cube →
    Filled ds' g index → Filled ds g index ∨ Hypercube.points cube ⊆ ds.covered

/-- What makes `esdm_read_grid` turn holes into data: the memspace is a cell of the grid or its
subgrids, some of its points lie in no fragment, there is a fill value for them, and the read
succeeds. -/
structure FillsHoles (ds : Dataset V) (env : Env V) (g : ℕ) (user : Mem V) (space : Dataspace) :
    Prop where
  hole : ¬ Hypercube.points space.getExtends ⊆ ds.covered
  fillValue : ds.fillValue ≠ none
  cell : ∃ ds₁ found, findCellInHierarchy space ds.gridHeap.length g ds = .ok (ds₁, some found)
    ∧ ∃ user' ds₂, ds₁.readBlocking env user space false = .ok (.success, user', ds₂)

theorem subset_covered {s : Hypercube} (h : s ∈ ds.shapes) : Hypercube.points s ⊆ ds.covered := by
  obtain ⟨r, hr⟩ := mem_shapes.1 h
  exact fun p hp => ⟨_, hr, hp⟩

theorem covered_congr (h : ds'.table = ds.table) : ds'.covered = ds.covered := by
  rw [covered, h, covered]

theorem covered_created (ds : Dataset V) (space : Dataspace) (buf : Option (Buf V)) :
    (ds.created space buf).covered = ds.covered ∪ Hypercube.points space.getExtends := by
  ext p
  simp [covered, created, addFragment, updateActualSize, Fragment.shape, newFragment, or_and_right,
    exists_or]

/-- New fragments in covered parts do not change what is covered. -/
theorem IoSteps.covered (hP : ∀ sub, P sub → Hypercube.points sub.getExtends ⊆ ds.covered)
    (h : IoSteps P ds ds') : ds'.covered = ds.covered := by
  induction h with
  | refl => rfl
  | tail _ hs ih =>
    cases hs with
    | update => exact ih
    | create hp => rw [covered_created, ih, Set.union_eq_left.2 (hP _ hp)]

theorem Allocates.sameTable (h : Relation.ReflTransGen Allocates ds ds') : SameTable ds ds' := by
  induction h with
  | refl => exact ⟨rfl, rfl, rfl, rfl, rfl, rfl⟩
  | tail _ hs ih =>
    obtain ⟨_, _, _, -, -, rfl⟩ := hs
    exact ⟨ih.dataspace, ih.fillValue, ih.actualSize, ih.status, ih.fragments, ih.table⟩

/-- Where the fragments cover the same points, no cell has been filled that had holes. -/
theorem keepsHoles_of_covered (hG : Grid.Geometry ds'.table ds'.gridHeap)
    (hc : ds'.covered = ds.covered) : KeepsHoles ds ds' := by
  refine ⟨hc, fun g grid index cube hg hcell hfill => .inr ?_⟩
  obtain ⟨grid', c, hg', hci, hne⟩ := hfill
  obtain rfl := Option.some.inj (hg.symm.trans hg')
  obtain ⟨hpos, cs, hcs, hci⟩ := Grid.cell_eq_ok.1 hci
  obtain ⟨r, hr⟩ := Option.ne_none_iff_exists'.1 hne
  obtain ⟨-, index', cube', hi', hcell', hm⟩ := (hG.cells g grid cs _ c hg hcs hci).fragment r hr
  have hi : Radix.value (Grid.sizes grid.axes) index = (grid.linearIndex index).toNat := by
    rw [Int.toNat_of_nonneg hpos, Grid.linearIndex_eq hcell.length.1 hcell.digits]
  obtain rfl := index_eq_of_linearIndex hcell.digits hi hcell'.length.1 hi'
  obtain rfl := hcell.eq hcell'
  rw [← hc]
  exact subset_covered (mem_shapes.2 ⟨r, hm⟩)

/-- `esdm_read` creates fragments only where all is covered. -/
theorem readBlocking_covered (hI : Inv ds) (hG : Grid.Geometry ds.table ds.gridHeap)
    (hs : ∀ d ∈ space.dim, 0 < d.size) (hd : space.dims = ds.dims) {allowWriteback : Bool}
    {ret : Status} (h : ds.readBlocking env user space allowWriteback = .ok (ret, user', ds')) :
    ds'.covered = ds.covered := by
  obtain ⟨covering, hc, hio⟩ := readBlocking_steps hs h
  obtain ⟨c, hc', hcov⟩ := fragmentsCoveringRegion_spec env hI hG
    ((Dataspace.getExtends_length space).trans hd) (Dataspace.getExtends_not_isEmpty hs)
  obtain rfl := Except.ok.inj (hc.symm.trans hc')
  exact hio.covered fun sub hsub => hsub.2.2.2.2.trans (hcov.fullyCovered.1 hsub.2.1)

/-- Holes are read with success only where there is a fill value. -/
theorem fillValue_of_readBlocking (hI : Inv ds) (hG : Grid.Geometry ds.table ds.gridHeap)
    (hs : ∀ d ∈ space.dim, 0 < d.size) (hd : space.dims = ds.dims)
    (hhole : ¬ Hypercube.points space.getExtends ⊆ ds.covered) {allowWriteback : Bool}
    (h : ds.readBlocking env user space allowWriteback = .ok (.success, user', ds')) :
    ds.fillValue ≠ none := by
  obtain ⟨c, hc, hcov⟩ := fragmentsCoveringRegion_spec env hI hG
    ((Dataspace.getExtends_length space).trans hd) (Dataspace.getExtends_not_isEmpty hs)
  have hfull : ¬ c.fullyCovered = true := mt hcov.fullyCovered.1 hhole
  intro hnone
  unfold readBlocking at h
  rw [hc, Outcome.ok_bind] at h
  obtain ⟨⟨status, user₁⟩, hfill, h⟩ := Outcome.bind_eq_ok.1 h
  rw [fillHoles, if_neg hfull, hnone] at hfill
  obtain ⟨_, -, hfill⟩ := Outcome.bind_eq_ok.1 hfill
  obtain ⟨rfl, rfl⟩ := Prod.mk.inj (Except.ok.inj hfill)
  cases h

section ReadGrid

theorem not_fillsHoles (h : Hypercube.points space.getExtends ⊆ ds.covered) :
    ¬ FillsHoles ds env g user space := fun hf => hf.hole h

/-- A space that fits a cell with a fragment has the shape of the fragment. -/
theorem Fits.mem_table (hG : Grid.Geometry ds.table ds.gridHeap) {k i r : ℕ} {grid : Grid}
    {cs : List GridEntry} {c : GridEntry} {index : List ℤ} (hF : Fits ds space k i grid cs c index)
    (hl : space.dims = grid.axes.length) (hr : c.fragment = some r) :
    (space.getExtends, r) ∈ ds.table := by
  obtain ⟨-, index', cube, hi', hcell', hm⟩ :=
    (hG.cells k grid cs i c hF.heap hF.cells hF.cell).fragment r hr
  obtain ⟨-, -, hcell⟩ := Grid.findCell_eq_ok (hG.axes k grid hF.heap) hl hF.found
  have hi := hF.index
  rw [Grid.linearIndex_eq hcell.length.1 hcell.digits] at hi
  obtain rfl := index_eq_of_linearIndex hcell.digits hi hcell'.length.1 hi'
  obtain rfl := hcell.eq hcell'
  exact hm

/-- The read of an empty cell covers what it reads, if it succeeds. -/
theorem readEmptyCell_covered (hs : ∀ d ∈ space.dim, 0 < d.size) {i : ℕ}
    (hnew : space.getExtends ∉ ds.shapes) {status : Status}
    (h : ds.readEmptyCell env g i user space = .ok (status, user', ds')) :
    ∃ ds₁, ds.readBlocking env user space false = .ok (status, user', ds₁)
      ∧ ds'.covered = if status = .success then ds.covered ∪ Hypercube.points space.getExtends
        else ds.covered := by
  obtain ⟨ret, ds₁, hread, hio, rfl, hend⟩ := readEmptyCell_eq_ok hs hnew h
  refine ⟨ds₁, hread, ?_⟩
  have hcov : ds₁.covered = ds.covered := covered_congr hio.table_eq
  obtain ⟨hne, rfl⟩ | ⟨rfl, hs₁, hch, ds₂, status₂, hfill, hw⟩ := hend
  · rw [if_neg hne, hcov]
  · obtain ⟨f, f', -, -, rfl, -⟩ := writeFragmentNonblocking_eq_ok hw
    have hcov₂ : ds₂.covered = (ds₁.created space (some (.user 0))).covered :=
      covered_congr (fillCell_sameTable hfill).table
    rw [if_pos rfl, covered_congr (show (ds₂.setFragment _ f').table = ds₂.table from rfl), hcov₂,
      covered_created, hcov]

variable (hI : Inv ds) (hG : Grid.Geometry ds.table ds.gridHeap)
  (hs : ∀ d ∈ space.dim, 0 < d.size) (hd : space.dims = ds.dims)

include hI hG hs hd

/-- `esdm_read_grid` changes what is covered exactly if it fills holes. -/
theorem readGrid_covered_iff {status : Status}
    (h : ds.readGrid env g user space = .ok (status, user', ds')) :
    ds'.covered = ds.covered ↔ ¬ FillsHoles ds env g user space := by
  obtain ⟨ds₁, hal, hrest⟩ := readGrid_eq_ok h
  have hsame := Allocates.sameTable hal
  have hcov₁ : ds₁.covered = ds.covered := covered_congr hsame.table
  have hd₁ := hd.trans (Allocates.dims hal).symm
  have hsteps : Steps (fun _ => False) (fun _ _ => False) ds ds₁ := allocates_steps hal
  obtain ⟨hI₁, -⟩ := hsteps.inv (fun _ h => h.elim) hI
  have hG₁ := hsteps.geometry (fun _ _ h => h.elim) (fun _ h => h.elim) hI hG
  obtain ⟨⟨grid, hg, hnone⟩, -, -, rfl⟩ | ⟨k, i, grid, cs, c, index, hfind, hF, hc⟩ := hrest
  · refine iff_of_true hcov₁ fun hfh => ?_
    obtain ⟨ds₂, found, hfind, -⟩ := hfh.cell
    obtain hne | hnone := hnone
    · exact hne ((hI.grids.forest.node hg).axes.trans hd.symm)
    · rw [hfind] at hnone
      simp at hnone
  have hl : space.dims = grid.axes.length :=
    hd₁.trans (hI₁.grids.forest.node hF.heap).axes.symm
  obtain ⟨r, hr, hread⟩ | ⟨rfl, r, ds₂, hr, hfill, hread⟩ | ⟨rfl, hnew, hread⟩ := hc
  · have hio : IoSteps (fun _ => False) ds₁ ds' := enqueueRead_steps hread
    refine iff_of_true ((covered_congr hio.table_eq).trans hcov₁) (not_fillsHoles ?_)
    rw [← hcov₁]
    exact subset_covered (mem_shapes.2 ⟨r, hF.mem_table hG₁ hl hr⟩)
  · have hio : IoSteps (fun _ => False) ds₂ ds' := enqueueRead_steps hread
    have hm := mem_of_lookupForShape hr
    have hcov₂ : ds₂.covered = ds₁.covered := covered_congr (fillCell_sameTable hfill).table
    refine iff_of_true ((covered_congr hio.table_eq).trans (hcov₂.trans hcov₁)) (not_fillsHoles ?_)
    rw [← hcov₁]
    exact subset_covered (mem_shapes.2 ⟨r, hm⟩)
  · obtain ⟨ds₂, hblock, hcov'⟩ := readEmptyCell_covered hs hnew hread
    constructor
    · intro heq hfh
      obtain ⟨ds₃, found, hfind', user₃, ds₄, hblock'⟩ := hfh.cell
      rw [hfind] at hfind'
      obtain ⟨rfl, -⟩ := Prod.mk.inj (Except.ok.inj hfind')
      obtain ⟨rfl, -⟩ := Prod.mk.inj (Except.ok.inj (hblock.symm.trans hblock'))
      rw [if_pos rfl, hcov₁, heq] at hcov'
      exact hfh.hole (hcov' ▸ Set.subset_union_right)
    · intro hnot
      by_cases hok : status = .success
      · subst hok
        rw [if_pos rfl, hcov₁] at hcov'
        rw [hcov', Set.union_eq_left]
        by_contra hhole
        refine hnot ⟨hhole, ?_, ds₁, _, hfind, _, _, hblock⟩
        rw [← hsame.fillValue]
        exact fillValue_of_readBlocking hI₁ hG₁ hs hd₁ (hcov₁ ▸ hhole) hblock
      · rw [hcov', if_neg hok, hcov₁]

end ReadGrid

/-- A grid of two cells, both empty. -/
def emptyGridCalls : List (Call ℕ) :=
  [.gridCreate [⟨0, 2⟩], .gridSubdivideFixed 0 0 1 false].map fun op => ⟨Env.calm 0, op⟩

/-- The read of the first one. -/
def readFirstCell : Call ℕ := ⟨Env.calm 0, .readGrid 0 (pairElement 0) fun _ => 0⟩

end Dataset

end Esdm
