import Esdm.Proofs.Hierarchy

/-!
# The fragments of a region

`esdmI_grid_fragmentsInRegion` on a grid all of whose leaf cells are filled: it returns the
fragments of the leaf cells that the region meets, each once (`fragmentsInRegion_exact`).
-/

namespace Esdm

variable {V : Type}

namespace Grid

variable {heap : List Grid} {dims g i : ℕ} {grid : Grid} {region : Hypercube}

section Walk

theorem Walks.intervals : ∀ {axes : List Axis} {region : Hypercube} {dims : List WalkDim},
    Walks axes region dims → dims.map WalkDim.intervals = sizes axes
  | [], [], [], _ => rfl
  | _ :: _, _ :: _, _ :: _, h => by
    rw [List.map_cons, h.2.intervals, h.1.1]
    rfl

theorem Walks.nonempty : ∀ {axes : List Axis} {region : Hypercube} {dims : List WalkDim},
    Walks axes region dims → ∀ d ∈ dims, d.startIndex < d.endIndex
  | [], [], [], _ => by simp
  | _ :: _, _ :: _, d :: _, h => by
    obtain ⟨-, i, j, hi, hj, hij, -⟩ := h.1
    have : d.startIndex < d.endIndex := by omega
    simpa using ⟨this, h.2.nonempty⟩

theorem Walks.length : ∀ {axes : List Axis} {region : Hypercube} {dims : List WalkDim},
    Walks axes region dims → dims.length = axes.length
  | [], [], [], _ => rfl
  | _ :: _, _ :: _, _ :: _, h => by simpa using h.2.length

theorem visited_startIndex : ∀ {dims : List WalkDim}, (∀ d ∈ dims, d.startIndex < d.endIndex) →
    Visited dims (dims.map WalkDim.startIndex)
  | [], _ => .nil
  | d :: dims, h =>
    .cons ⟨le_rfl, h d (by simp)⟩ (visited_startIndex fun e he => h e (by simp [he]))

end Walk

section Select

/-- The cell and the region have a point in common. -/
def Meets (heap : List Grid) (region : Hypercube) (c : ℕ × ℕ) : Prop :=
  ∃ cube p, Extent heap c cube ∧ p ∈ Hypercube.points cube ∧ p ∈ Hypercube.points region

/-- The fragments are those of the given cells that the region meets, each cell being counted once.
-/
def Selects (heap : List Grid) (region : Hypercube) (cells : ℕ × ℕ → Prop) (fragments : List ℕ) :
    Prop :=
  ∃ leaves : List (ℕ × ℕ), leaves.Nodup ∧ (∀ c, c ∈ leaves ↔ cells c ∧ Meets heap region c)
    ∧ leaves.map (fragmentIn heap) = fragments.map some

/-- What is selected from different sets of cells, one after another. -/
theorem selects_flatMap {α : Type} {cells : α → ℕ × ℕ → Prop} {found : α → List ℕ} :
    ∀ {l : List α}, l.Nodup → (∀ a ∈ l, Selects heap region (cells a) (found a)) →
    (∀ a ∈ l, ∀ b ∈ l, ∀ c, cells a c → cells b c → Meets heap region c → a = b) →
    Selects heap region (fun c => ∃ a ∈ l, cells a c) (l.flatMap found)
  | [], _, _, _ => ⟨[], .nil, by simp, rfl⟩
  | a :: l, hn, hs, hd => by
    obtain ⟨hal, hn⟩ := List.nodup_cons.1 hn
    obtain ⟨first, hfn, hfm, hff⟩ := hs a (by simp)
    obtain ⟨rest, hrn, hrm, hrf⟩ := selects_flatMap hn (fun b hb => hs b (by simp [hb]))
      fun b hb b' hb' => hd b (by simp [hb]) b' (by simp [hb'])
    refine ⟨first ++ rest, List.nodup_append'.2 ⟨hfn, hrn, fun c hc hc' => ?_⟩, fun c => ?_, ?_⟩
    · obtain ⟨hca, hm⟩ := (hfm c).1 hc
      obtain ⟨⟨b, hb, hcb⟩, -⟩ := (hrm c).1 hc'
      obtain rfl := hd a (by simp) b (by simp [hb]) c hca hcb hm
      exact hal hb
    · rw [List.mem_append, hfm, hrm, ← or_and_right]
      simp only [List.mem_cons, exists_eq_or_imp]
    · rw [List.map_append, hff, hrf, List.flatMap_cons, List.map_append]

theorem Selects.congr {cells cells' : ℕ × ℕ → Prop} {fragments : List ℕ}
    (h : Selects heap region cells fragments)
    (hc : ∀ c, Meets heap region c → (cells c ↔ cells' c)) :
    Selects heap region cells' fragments := by
  obtain ⟨leaves, hn, hm, hf⟩ := h
  exact ⟨leaves, hn, fun c => (hm c).trans (and_congr_left (hc c)), hf⟩

variable {wdims : List WalkDim}

/-- A cell that is visited shares a point with the region. -/
theorem Walks.place (hwalk : Walks grid.axes region wdims) {index : List ℤ}
    (hv : index ∈ Grid.visits wdims) : ∃ (n : ℕ) (cube : Hypercube) (q : List ℤ),
      address wdims index = n ∧ IsCell grid.axes index cube ∧ CellAt grid.axes n cube
        ∧ q ∈ Hypercube.points cube ∧ q ∈ Hypercube.points region := by
  obtain ⟨cube, q, hcell, hqc, hqr⟩ := hwalk.visited_cell (mem_visits.1 hv)
  obtain ⟨n, hn⟩ := Int.eq_ofNat_of_zero_le (Radix.value_bounds hcell.digits).1
  refine ⟨n, cube, q, ?_, hcell, ⟨index, hcell, hcell.linearIndexFrom_eq.trans hn⟩, hqc, hqr⟩
  rw [address, hwalk.intervals, hn]

/-- What is selected from the cells of a grid that are visited is selected from the grid. -/
theorem Hierarchy.selects_visits (h : Hierarchy heap dims g) (hg : heap[g]? = some grid)
    (hwalk : Walks grid.axes region wdims) {found : List ℤ → List ℕ}
    (hs : ∀ index ∈ visits wdims,
      Selects heap region (LeafIn heap g grid (address wdims index).toNat) (found index)) :
    Selects heap region (Leaf heap g) ((visits wdims).flatMap found) := by
  obtain ⟨hl, -⟩ := h.level hg
  refine (selects_flatMap (nodup_visits wdims) hs fun index hv index' hv' c hc hc' hm => ?_).congr
    fun c hm => ⟨?_, fun hc => ?_⟩
  · obtain ⟨n, cube, -, hn, hcell, hat, -⟩ := hwalk.place hv
    obtain ⟨n', cube', -, hn', hcell', hat', -⟩ := hwalk.place hv'
    rw [hn, Int.toNat_natCast] at hc
    rw [hn', Int.toNat_natCast] at hc'
    obtain ⟨leaf, q, hext, hq, -⟩ := hm
    obtain ⟨cell, hcell₁, hw, -⟩ := h.leafIn_within hg hc hext
    obtain ⟨cell', hcell₁', hw', -⟩ := h.leafIn_within hg hc' hext
    obtain rfl := hat.eq hcell₁
    obtain rfl := hat'.eq hcell₁'
    exact hcell.index_unique hl.proper hcell' (hw.points_subset hq) (hw'.points_subset hq)
  · rintro ⟨index, hv, hc⟩
    obtain ⟨n, cube, -, hn, -, hat, -⟩ := hwalk.place hv
    rw [hn, Int.toNat_natCast] at hc
    exact (leaf_iff hl hg).2 ⟨n, hat.lt, hc⟩
  · -- the cell that the leaf cell is in shares its point with the region
    obtain ⟨n, -, hin⟩ := (leaf_iff hl hg).1 hc
    obtain ⟨leaf, q, hext, hq, hqr⟩ := hm
    obtain ⟨cell, ⟨index, hcell, hi⟩, hw, -⟩ := h.leafIn_within hg hin hext
    refine ⟨index, mem_visits.2 (hwalk.visits hcell (hw.points_subset hq) hqr), ?_⟩
    rw [address, hwalk.intervals, ← hcell.linearIndexFrom_eq, hi, Int.toNat_natCast]
    exact hin

end Select

end Grid

namespace Dataset

open Grid

variable {ds : Dataset V} {region : Hypercube}

/-- What the walk of `esdmI_grid_fragmentsInRegion_internal` does at a cell. -/
def visitCell (ds : Dataset V) (region : Hypercube) (depth : ℕ) (grid : Grid) (i : ℤ) :
    Outcome (Status × List ℕ) := do
  let cell ← grid.cell i
  match cell.fragment, cell.subgrid with
  | some r, _ => return (.success, [r])
  | none, some h => ds.fragmentsInRegionInternal region depth h
  | none, none => return (.invalidStateError, [])

/-- The fragments that a visit finds. -/
def foundBy (visit : ℤ → Outcome (Status × List ℕ)) (i : ℤ) : List ℕ :=
  match visit i with
  | .ok (_, fragments) => fragments
  | .error _ => []

/-- A visit finds the fragments of the cell's leaf cells that the region meets. -/
theorem visitCell_selects {dims depth g i : ℕ} {grid : Grid} (hg : ds.gridHeap[g]? = some grid)
    (h : Hierarchy ds.gridHeap dims g) (hf : Filled ds.gridHeap g)
    (ih : ∀ {h : ℕ} {sub : Grid} {p : List ℤ}, g < h → ds.gridHeap[h]? = some sub →
      Hierarchy ds.gridHeap dims h → Filled ds.gridHeap h → p ∈ Hypercube.points region →
      p ∈ Hypercube.points (box sub.axes) →
      ∃ fragments, ds.fragmentsInRegionInternal region depth h = .ok (.success, fragments)
        ∧ Selects ds.gridHeap region (Leaf ds.gridHeap h) fragments)
    {cube : Hypercube} {p : List ℤ} (hcell : CellAt grid.axes i cube)
    (hpc : p ∈ Hypercube.points cube) (hpr : p ∈ Hypercube.points region) :
    ∃ fragments, ds.visitCell region depth grid i = .ok (.success, fragments)
      ∧ Selects ds.gridHeap region (LeafIn ds.gridHeap g grid i) fragments := by
  obtain ⟨hl, hsub⟩ := h.level hg
  obtain ⟨e, he, hes, hef, hleaf⟩ := hl.cell_of_filled hg hf hcell.lt
  unfold visitCell
  rw [he, Outcome.ok_bind, hes, hef]
  rcases hs : grid.subgridAt i with _ | k
  · obtain ⟨r, hr⟩ := hleaf hs
    refine ⟨[r], by rw [hr]; rfl, [(g, i)], by simp, fun c => ?_, by simp [fragmentIn, hg, hr]⟩
    rw [List.mem_singleton]
    constructor
    · rintro rfl
      exact ⟨.inl ⟨hs, rfl⟩, cube, p, ⟨grid, hg, hcell⟩, hpc, hpr⟩
    · rintro ⟨⟨-, rfl⟩ | ⟨k, hk, -⟩, -⟩
      · rfl
      · rw [hs] at hk
        cases hk
  · obtain ⟨hlt, sub, hk, hbox⟩ := hl.child i k hs
    obtain rfl := hcell.eq hbox
    obtain ⟨fragments, heq, hsel⟩ := ih hlt hk (hsub i k hs) (hf.sub hg hs) hpr hpc
    rw [hl.exclusive i k hs]
    refine ⟨fragments, heq, hsel.congr fun c _ => ⟨fun hc => .inr ⟨k, hs, hc⟩, ?_⟩⟩
    rintro (⟨hn, -⟩ | ⟨k', hs', hc⟩)
    · rw [hs] at hn
      cases hn
    · obtain rfl := Option.some.inj (hs.symm.trans hs')
      exact hc

theorem fragmentsInRegionInternal_selects {dims : ℕ} (hdims : 0 < dims)
    (hr : region.length = dims) :
    ∀ (depth g : ℕ) {grid : Grid} {p : List ℤ}, ds.gridHeap.length - g ≤ depth →
      ds.gridHeap[g]? = some grid → Hierarchy ds.gridHeap dims g → Filled ds.gridHeap g →
      p ∈ Hypercube.points region → p ∈ Hypercube.points (box grid.axes) →
      ∃ fragments, ds.fragmentsInRegionInternal region depth g = .ok (.success, fragments)
        ∧ Selects ds.gridHeap region (Leaf ds.gridHeap g) fragments
  | 0, g, grid, p, hn, hg, _, _, _, _ => by
    have := (List.getElem?_eq_some_iff.1 hg).1
    omega
  | depth + 1, g, grid, p, hn, hg, h, hf, hpr, hpb => by
    obtain ⟨hl, hsub⟩ := h.level hg
    obtain ⟨wdims, hrange, hwalk⟩ := indexRange_eq_ok hl.proper hpr hpb
    have hne := hwalk.nonempty
    have hvisit : ∀ index ∈ visits wdims, ∃ fragments,
        ds.visitCell region depth grid (address wdims index) = .ok (.success, fragments)
          ∧ Selects ds.gridHeap region (LeafIn ds.gridHeap g grid (address wdims index).toNat)
            fragments := by
      intro index hv
      obtain ⟨n, cube, q, hn, -, hat, hqc, hqr⟩ := hwalk.place hv
      rw [hn, Int.toNat_natCast]
      exact visitCell_selects hg h hf (fun hlt hk hsub hfill hpr hpb =>
        fragmentsInRegionInternal_selects hdims hr depth _ (by omega) hk hsub hfill hpr hpb)
        hat hqc hqr
    have hwalked := @walkCells_eq (ds.visitCell region depth grid)
      (foundBy (ds.visitCell region depth grid)) wdims hne fun index hv => by
        obtain ⟨fragments, heq, -⟩ := hvisit index hv
        simp [foundBy, heq]
    refine ⟨(visits wdims).flatMap fun index =>
      foundBy (ds.visitCell region depth grid) (address wdims index), ?_, ?_⟩
    · obtain ⟨n, cube, q, hn, hcell, -⟩ := hwalk.place (mem_visits.2 (visited_startIndex hne))
      have haddr : grid.linearIndex (wdims.map WalkDim.startIndex)
          = address wdims (wdims.map WalkDim.startIndex) := by
        rw [linearIndex_eq hcell.length.1 hcell.digits, address, hwalk.intervals]
      have hnonneg : 0 ≤ grid.linearIndex (wdims.map WalkDim.startIndex) := by
        rw [haddr, hn]
        exact Int.natCast_nonneg n
      have hex : ∃ d ∈ wdims, d.startIndex ≠ d.endIndex := by
        obtain ⟨d, hd⟩ := List.exists_mem_of_length_pos
          (show 0 < wdims.length by rw [hwalk.length, hl.rank]; exact hdims)
        exact ⟨d, hd, (hne d hd).ne⟩
      rw [fragmentsInRegionInternal, grid_eq_ok.2 hg, Outcome.ok_bind, eassert_of
        (show grid.dimCount = region.length from hl.rank.trans hr.symm), Outcome.ok_bind, hrange,
        Outcome.ok_bind, eassert_of hex, Outcome.ok_bind]
      dsimp only
      rw [eassert_of hnonneg, Outcome.ok_bind, haddr]
      exact hwalked
    · refine h.selects_visits hg hwalk fun index hv => ?_
      obtain ⟨fragments, heq, hsel⟩ := hvisit index hv
      simpa [foundBy, heq] using hsel

/-- The query returns the fragments of the leaf cells that the region meets, each cell once, and
these cells contain what the region has of the domain. -/
def FindsFragments (ds : Dataset V) (g : ℕ) (domain region : Hypercube) : Prop :=
  ∃ (fragments : List ℕ) (leaves : List (ℕ × ℕ)),
    ds.fragmentsInRegion g region = .ok (.success, fragments) ∧ leaves.Nodup
    ∧ (∀ c, c ∈ leaves ↔ Leaf ds.gridHeap g c ∧ Meets ds.gridHeap region c)
    ∧ leaves.map (fragmentIn ds.gridHeap) = fragments.map some
    ∧ ∀ p ∈ Hypercube.points region, p ∈ Hypercube.points domain →
      ∃ c ∈ leaves, ∃ cube, Extent ds.gridHeap c cube ∧ p ∈ Hypercube.points cube

theorem filled_pair : ∃ ds : Dataset ℕ, (init pairSpace none).run pairGridCalls = .ok ds
    ∧ ds.gridHeap = pairGrids 0 0 (some 1) ∧ ds.dataspace = pairSpace
    ∧ Hierarchy ds.gridHeap 1 0 ∧ Filled ds.gridHeap 0 := by
  have hrun : (init pairSpace none).run pairGridCalls = .ok (_ : Dataset ℕ) := rfl
  have hF := (run_geometry hrun).1.grids.forest
  exact ⟨_, rfl, rfl, rfl, hierarchy_pairGrids hrun rfl rfl,
    hF.filled (hF.leavesFilled_of_done rfl rfl)⟩

end Dataset

end Esdm
