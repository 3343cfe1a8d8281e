import Esdm.Proofs.Cells
import Esdm.Proofs.Invariants

/-!
# Where the cells of the grids lie

A subgrid encloses the cell it stands in, and a fragment in a cell has the cell's shape.  Both hold
in every run (`run_geometry`), also if subdivisions have got arguments that are not positive: a grid
that encloses nothing has no fragments, nor have the grids in its cells.
-/

namespace Esdm

variable {V : Type}

namespace Grid

/-- What holds of the cell `c` at place `i` of a grid with the given axes. -/
structure CellGeometry (table : List (Hypercube × ℕ)) (heap : List Grid) (axes : List Axis) (i : ℕ)
    (c : GridEntry) : Prop where
  child : ∀ h sub, c.subgrid = some h → heap[h]? = some sub →
    ∃ index, linearIndexFrom 0 axes index = i ∧ ChildAxes axes index sub.axes
  fragment : ∀ r, c.fragment = some r → (∀ axis ∈ axes, Axis.Proper axis)
    ∧ ∃ index cube, linearIndexFrom 0 axes index = i ∧ IsCell axes index cube ∧ (cube, r) ∈ table

theorem cellGeometry_empty (table : List (Hypercube × ℕ)) (heap : List Grid) (axes : List Axis)
    (i : ℕ) : CellGeometry table heap axes i ⟨none, none⟩ :=
  ⟨fun _ _ h => (by cases h), fun _ h => (by cases h)⟩

/-- The geometry of all grids. -/
structure Geometry (table : List (Hypercube × ℕ)) (heap : List Grid) : Prop where
  axes : ∀ (g : ℕ) (grid : Grid), heap[g]? = some grid → ∀ axis ∈ grid.axes, Axis.Wf axis
  cells : ∀ (g : ℕ) (grid : Grid) (cs : List GridEntry) (i : ℕ) (c : GridEntry),
    heap[g]? = some grid → grid.cells = some cs → cs[i]? = some c →
    CellGeometry table heap grid.axes i c

variable {table table' : List (Hypercube × ℕ)} {heap heap' : List Grid} {g : ℕ} {grid grid' : Grid}

theorem Geometry.mono (h : Geometry table heap) (ht : ∀ e ∈ table, e ∈ table') :
    Geometry table' heap := by
  refine ⟨h.axes, fun g grid cs i c hg hcs hc => ?_⟩
  obtain ⟨hchild, hfrag⟩ := h.cells g grid cs i c hg hcs hc
  refine ⟨hchild, fun r hr => ?_⟩
  obtain ⟨hp, index, cube, hi, hcell, hm⟩ := hfrag r hr
  exact ⟨hp, index, cube, hi, hcell, ht _ hm⟩

/-- The counters do not matter. -/
theorem Geometry.congr (h : Geometry table heap)
    (hu : heap'.map uncounted = heap.map uncounted) : Geometry table heap' := by
  constructor
  · intro g grid' hg
    obtain ⟨grid, hg', ha, -⟩ := getElem?_of_uncounted hu hg
    rw [ha]
    exact h.axes g grid hg'
  · intro g grid' cs i c hg hcs hc
    obtain ⟨grid, hg', ha, hc'⟩ := getElem?_of_uncounted hu hg
    obtain ⟨hchild, hfrag⟩ := h.cells g grid cs i c hg' (hc' ▸ hcs) hc
    rw [ha]
    refine ⟨fun k sub hk hsub => ?_, hfrag⟩
    obtain ⟨sub', hsub', ha', -⟩ := getElem?_of_uncounted hu hsub
    rw [ha']
    exact hchild k sub' hk hsub'

/-- Replace a grid by one that encloses no more as a subgrid. -/
theorem Geometry.set (h : Geometry table heap) (hg : heap[g]? = some grid)
    (ha : ∀ axis ∈ grid'.axes, Axis.Wf axis)
    (hsub : ∀ {axes : List Axis} {index : List ℤ}, ChildAxes axes index grid.axes →
      ChildAxes axes index grid'.axes)
    (hcell : ∀ {cs : List GridEntry} {i : ℕ} {c : GridEntry}, grid'.cells = some cs →
      cs[i]? = some c → CellGeometry table heap grid'.axes i c) :
    Geometry table (heap.set g grid') := by
  have hget := getElem?_set_of_some hg grid'
  have hold : ∀ {axes : List Axis} {i : ℕ} {c : GridEntry}, CellGeometry table heap axes i c →
      CellGeometry table (heap.set g grid') axes i c := by
    intro axes i c hc
    refine ⟨fun k sub hk hs => ?_, hc.fragment⟩
    rw [hget] at hs
    split_ifs at hs with he
    · obtain ⟨index, hi, hch⟩ := hc.child k grid hk (he ▸ hg)
      exact ⟨index, hi, Option.some.inj hs ▸ hsub hch⟩
    · exact hc.child k sub hk hs
  constructor
  · intro k sub hk
    rw [hget] at hk
    split_ifs at hk
    · exact Option.some.inj hk ▸ ha
    · exact h.axes k sub hk
  · intro k sub cs i c hk hcs hc
    rw [hget] at hk
    split_ifs at hk
    · obtain rfl := Option.some.inj hk
      exact hold (hcell hcs hc)
    · exact hold (h.cells k sub cs i c hk hcs hc)

/-- Add a grid without cells. -/
theorem Geometry.push {dims : ℕ} (h : Geometry table heap) (hF : Forest dims none heap)
    {new : Grid} (ha : ∀ axis ∈ new.axes, Axis.Wf axis) (hcells : new.cells = none) :
    Geometry table (heap ++ [new]) := by
  have hget := getElem?_push heap new
  constructor
  · intro k sub hk
    rw [hget] at hk
    split_ifs at hk
    · exact Option.some.inj hk ▸ ha
    · exact h.axes k sub hk
  · intro k sub cs i c hk hcs hc
    rw [hget] at hk
    split_ifs at hk
    · rw [← Option.some.inj hk, hcells] at hcs
      cases hcs
    · have hcell := h.cells k sub cs i c hk hcs hc
      refine ⟨fun j kid hj hkid => ?_, hcell.fragment⟩
      have hlt := hF.subgrid_lt hk (mem_subgrids.2 ⟨cs, hcs, c, List.mem_of_getElem? hc, hj⟩)
      rw [hget, if_neg (by omega)] at hkid
      exact hcell.child j kid hj hkid

theorem fresh_axes_wf (parent : Option ℕ) (dim : List Dim) :
    ∀ axis ∈ (fresh parent dim).axes, Axis.Wf axis := by
  intro axis ha
  obtain ⟨d, -, rfl⟩ := List.mem_map.1 ha
  exact Axis.make_wf ..

end Grid

theorem Op.Subdivides.refines {op : Op V} {axis axis' : Axis} (h : op.Subdivides axis axis')
    (hw : axis.Wf) : axis.Refines axis' := by
  cases op with
  | gridSubdivideFixed => exact hw.subdivideFixed h.choose_spec
  | gridSubdivideFlexible => exact hw.subdivideFlexible h.choose_spec
  | gridSubdivide => exact hw.subdivide h.choose_spec
  | _ => exact h.elim

namespace Dataset

variable {ds ds' : Dataset V} {P : Dataspace → Prop} {S : Axis → Axis → Prop}

theorem GridStep.geometry (hS : ∀ a a', S a a' → a.Wf → a.Refines a') (h : GridStep P S ds ds')
    (hI : GridInv none ds) (hG : Grid.Geometry ds.table ds.gridHeap) :
    Grid.Geometry ds'.table ds'.gridHeap := by
  have hF := hI.forest
  cases h with
  | create hd => exact hG.push hF (Grid.fresh_axes_wf _ _) rfl
  | @subgrid g grid cs index i dim hg hcs hi hl hc hs hd =>
    have hlt := (List.getElem?_eq_some_iff.1 hg).1
    have hg' : (ds.gridHeap ++ [Grid.fresh (some g) dim])[g]? = some grid := by
      rw [List.getElem?_append_left hlt, hg]
    have hG' : Grid.Geometry ds.table (ds.gridHeap ++ [Grid.fresh (some g) dim]) :=
      hG.push hF (Grid.fresh_axes_wf _ _) rfl
    refine hG'.set hg' (hG.axes g grid hg) (fun h => h) fun {cs' j c} hcs' hj => ?_
    obtain rfl := Option.some.inj hcs'
    by_cases hij : i = j
    · subst hij
      rw [List.getElem?_set_self (List.getElem?_eq_some_iff.1 hc).1] at hj
      obtain rfl := Option.some.inj hj
      refine ⟨fun k sub hk hsub => ?_, fun r hr => by cases hr⟩
      obtain rfl := Option.some.inj hk
      rw [Grid.getElem?_push, if_pos rfl] at hsub
      obtain rfl := Option.some.inj hsub
      exact ⟨index, hi, Grid.childAxes_of_cellSize (hl.trans (hF.node hg).axes.symm) hs⟩
    · rw [List.getElem?_set_ne hij] at hj
      exact hG'.cells g grid cs j c hg' hcs hj
  | @axis g grid i axis axis' hg hcs ha hS' =>
    have hr := hS axis axis' hS' (hG.axes g grid hg axis (List.mem_of_getElem? ha))
    refine hG.set hg ?_ (fun h => h.set ha hr) fun {cs' j c} hcs' => ?_
    · intro a hmem
      rcases List.mem_or_eq_of_mem_set hmem with hmem | rfl
      · exact hG.axes g grid hg a hmem
      · exact hr.wf
    · rw [hcs] at hcs'
      cases hcs'
  | @allocate g grid grid' hg h =>
    have haxes := (ensureGrid_axes h).1
    refine hG.set hg (haxes ▸ hG.axes g grid hg) (fun h => haxes ▸ h) fun {cs i c} hcs hc => ?_
    obtain ⟨-, rfl⟩ | ⟨-, -, rfl⟩ := Grid.ensureGrid_eq_ok h
    · exact hG.cells g grid' cs i c hg hcs hc
    · obtain rfl := Option.some.inj hcs
      obtain rfl := List.eq_of_mem_replicate (List.mem_of_getElem? hc)
      exact Grid.cellGeometry_empty ..
  | @id g grid id hg =>
    exact hG.set hg (hG.axes g grid hg) (fun h => h) fun {cs i c} hcs hc =>
      hG.cells g grid cs i c hg hcs hc
  | @fill ds' g grid cs index i space r _ hg hcs hf hi hd hc hr h =>
    obtain ⟨ds₁, heq, -, hrec⟩ := fillCell_spec hI hg hcs hc r
    obtain rfl : ds₁ = ds' := Except.ok.inj (heq.symm.trans h)
    obtain ⟨_, _, _, _, rfl, hu⟩ := hrec
    suffices hset : Grid.Geometry ds.table (ds.setCell g grid cs i r).gridHeap from hset.congr hu
    refine hG.set hg (hG.axes g grid hg) (fun h => h) fun {cs' j c} hcs' hj => ?_
    obtain rfl := Option.some.inj hcs'
    by_cases hij : i = j
    · subst hij
      rw [List.getElem?_set_self (List.getElem?_eq_some_iff.1 hc).1] at hj
      obtain rfl := Option.some.inj hj
      refine ⟨fun k sub hk => (by cases hk), fun r' hr' => ?_⟩
      obtain rfl := Option.some.inj hr'
      have hlen : space.dim.length = grid.axes.length :=
        (show space.dim.length = ds.dims from hd).trans (hF.node hg).axes.symm
      obtain ⟨-, hp, hcell⟩ := Grid.findCell_eq_ok (hG.axes g grid hg) hlen hf
      exact ⟨hp, index, _, hi, hcell, hr⟩
    · rw [List.getElem?_set_ne hij] at hj
      exact hG.cells g grid cs j c hg hcs hj

theorem IoStep.table_subset (h : IoStep P ds ds') : ∀ e ∈ ds.table, e ∈ ds'.table := by
  cases h with
  | update => exact fun _ h => h
  | create => exact fun _ h => List.mem_append_left _ h

theorem Step.geometry (hS : ∀ a a', S a a' → a.Wf → a.Refines a') (h : Step P S ds ds')
    (hI : Inv ds) (hG : Grid.Geometry ds.table ds.gridHeap) :
    Grid.Geometry ds'.table ds'.gridHeap := by
  cases h with
  | io h =>
    rw [h.sameGrids.gridHeap]
    exact hG.mono h.table_subset
  | grid h => exact h.geometry hS hI.grids hG
  | fillValue | leave => exact hG

theorem Steps.geometry (hS : ∀ a a', S a a' → a.Wf → a.Refines a')
    (hP : ∀ sub, P sub → sub.dims = ds.dims) (h : Steps P S ds ds') (hI : Inv ds)
    (hG : Grid.Geometry ds.table ds.gridHeap) : Grid.Geometry ds'.table ds'.gridHeap := by
  exact (h.induct (C := fun ds => Grid.Geometry ds.table ds.gridHeap) hP hI hG
    fun hI' _ hs hG' => hs.geometry hS hI' hG').2.2

theorem step_geometry {c : Call V} {result : Result V} (hI : Inv ds)
    (hG : Grid.Geometry ds.table ds.gridHeap) (h : ds.step c = .ok result) :
    Grid.Geometry result.dataset.table result.dataset.gridHeap :=
  (step_steps h).geometry (fun _ _ h hw => h.refines hw) (fun _ => Op.Writes.dims) hI hG

theorem run_geometry {dataspace : Dataspace} {fillValue : Option V} {calls : List (Call V)}
    (h : (init dataspace fillValue).run calls = .ok ds) :
    Inv ds ∧ Grid.Geometry ds.table ds.gridHeap := by
  refine run_induction (I := fun ds => Inv ds ∧ Grid.Geometry ds.table ds.gridHeap) ?_ ?_ h
  · rintro ds c result - ⟨hI, hG⟩ hstep
    exact ⟨(step_inv hI hstep).1, step_geometry hI hG hstep⟩
  · refine ⟨init_inv .., ?_, ?_⟩ <;> simp [init]

end Dataset

end Esdm
