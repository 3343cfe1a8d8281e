import Esdm.Proofs.RegionQuery

/-!
# Coverage

`esdmI_dataset_fragmentsCoveringRegion` finds out which part of a region is covered by fragments,
and by which (`fragmentsCoveringRegion_spec`).  A grid that is done encloses something, and so do
its subgrids; their cells partition the region, and each of them has a fragment.
-/

namespace Esdm

variable {V : Type}

namespace Grid

variable {table : List (Hypercube × ℕ)} {heap : List Grid} {dims g : ℕ} {grid : Grid}

/-- The fragments cover the region, as far as it lies in the box, and lie in the box. -/
structure Collected (table : List (Hypercube × ℕ)) (region box : Hypercube) (fragments : List ℕ) :
    Prop where
  covers : ∀ p ∈ Hypercube.points region, p ∈ Hypercube.points box →
    ∃ e ∈ table, e.2 ∈ fragments ∧ p ∈ Hypercube.points e.1
  inside : ∀ r ∈ fragments, ∃ e ∈ table, e.2 = r ∧ Hypercube.points e.1 ⊆ Hypercube.points box
    ∧ (Hypercube.points e.1).Nonempty
  nodup : fragments.Nodup

end Grid

namespace Dataset

variable {ds : Dataset V} {region : Hypercube}

open Grid in
/-- The cell at the place of an index is about this index. -/
theorem index_eq_of_linearIndex {axes : List Axis} {index index' : List ℤ} {i : ℕ}
    (hd : Radix.Digits index (sizes axes)) (hi : Radix.value (sizes axes) index = i)
    (hl : index'.length = axes.length) (hi' : linearIndexFrom 0 axes index' = i) :
    index' = index := by
  obtain ⟨hd', h⟩ | ⟨-, h⟩ := linearIndexFrom_eq 0 hl
  · refine Radix.value_inj hd' hd ?_
    rw [hi, ← hi', h]
    ring
  · omega

open Grid in
/-- The table has a leaf cell with its fragment. -/
theorem mem_table_of_leaf (hG : Geometry ds.table ds.gridHeap) {c : ℕ × ℕ} {r : ℕ}
    {cube : Hypercube} (hr : fragmentIn ds.gridHeap c = some r) (hc : Extent ds.gridHeap c cube) :
    (cube, r) ∈ ds.table := by
  obtain ⟨grid, hg, hcell⟩ := hc
  obtain ⟨e, he, her⟩ : ∃ e, (grid.cells.bind fun cs => cs[c.2]?) = some e
    ∧ e.fragment = some r := by
    rw [fragmentIn, hg] at hr
    exact Option.bind_eq_some_iff.1 hr
  obtain ⟨cs, hcs, hi⟩ := Option.bind_eq_some_iff.1 he
  obtain ⟨-, index, cube', hidx, hcell', hm⟩ :=
    (hG.cells c.1 grid cs c.2 e hg hcs hi).fragment r her
  obtain rfl := hcell.eq ⟨index, hcell', hidx⟩
  exact hm

open Grid in
/-- The walk through a grid that is done collects the region's fragments. -/
theorem fragmentsInRegionInternal_spec (hw : TableWf ds) (hF : Forest ds.dims none ds.gridHeap)
    (hG : Geometry ds.table ds.gridHeap) (hr : region.length = ds.dims) {g : ℕ} {grid : Grid}
    {p : List ℤ} (hg : ds.gridHeap[g]? = some grid) (hd : grid.done = true)
    (hpr : p ∈ Hypercube.points region) (hpb : p ∈ Hypercube.points (box grid.axes)) :
    ∃ fragments, ds.fragmentsInRegionInternal region ds.gridHeap.length g
      = .ok (.success, fragments)
      ∧ Collected ds.table region (box grid.axes) fragments := by
  have h := hG.hierarchy_of_done hF hg hd
  obtain ⟨fragments, heq, leaves, hn, hm, hfr⟩ := fragmentsInRegionInternal_selects
    (hF.node hg).pos hr ds.gridHeap.length g (Nat.sub_le _ g) hg h
    (hF.filled (hF.leavesFilled_of_done hg hd)) hpr hpb
  have hleaf : ∀ r ∈ fragments, ∃ c cube, Leaf ds.gridHeap g c ∧ Extent ds.gridHeap c cube
      ∧ fragmentIn ds.gridHeap c = some r ∧ (cube, r) ∈ ds.table := by
    intro r hr
    obtain ⟨c, hc, hcr⟩ := List.mem_map.1 (hfr ▸ List.mem_map_of_mem hr)
    obtain ⟨hleaf, cube, -, hext, -⟩ := (hm c).1 hc
    exact ⟨c, cube, hleaf, hext, hcr, mem_table_of_leaf hG hcr hext⟩
  refine ⟨fragments, heq, fun q hqr hqb => ?_, fun r hr => ?_, ?_⟩
  · obtain ⟨c, cube, hc, hext, hqc⟩ := h.exists_leaf hg hqb
    have hmem := List.mem_map_of_mem (f := fragmentIn ds.gridHeap)
      ((hm c).2 ⟨hc, cube, q, hext, hqc, hqr⟩)
    rw [hfr] at hmem
    obtain ⟨r, hr, hcr⟩ := List.mem_map.1 hmem
    exact ⟨(cube, r), mem_table_of_leaf hG hcr.symm hext, hr, hqc⟩
  · obtain ⟨c, cube, hc, hext, -, ht⟩ := hleaf r hr
    obtain ⟨cube', hext', hwithin, hne⟩ := h.leaf_within hc hg
    obtain rfl := hext.eq hext'
    exact ⟨(cube, r), ht, rfl, hwithin.points_subset, Hypercube.points_nonempty_iff.2 hne⟩
  · -- two leaf cells with one fragment would have the same points
    refine List.Nodup.of_map some (hfr ▸ hn.map_on fun c hc c' hc' heq => ?_)
    obtain ⟨hleafc, cube, q, hext, hq, -⟩ := (hm c).1 hc
    obtain ⟨hleafc', cube', -, hext', -⟩ := (hm c').1 hc'
    obtain ⟨r, -, hcr⟩ := List.mem_map.1 (hfr ▸ List.mem_map_of_mem hc)
    have ht := mem_table_of_leaf hG hcr.symm hext
    have ht' := mem_table_of_leaf hG (heq ▸ hcr.symm) hext'
    obtain ⟨rfl, -⟩ := Prod.mk.inj (hw.eq_of_ref_eq ht ht' rfl)
    exact h.leaf_unique hleafc hleafc' hext hext' hq hq

section BestGrid

/-- How much of a range lies in an axis' domain, as `esdmI_grid_coverRegionSize` computes it. -/
theorem coverage_le (axis : Axis) {r : Range} (hr : ¬ r.isEmpty) :
    max 0 (min (r.start + r.size) axis.outerStop - max r.start axis.outerStart) ≤ r.size := by
  rw [Range.size_of_not_isEmpty hr]
  unfold Range.isEmpty at hr
  omega

open Grid in
/-- A region whose coverage is its size lies in the grid's domain. -/
theorem within_box_of_coverage : ∀ {axes : List Axis} {region : Hypercube},
    region.length = axes.length → ¬ Hypercube.isEmpty region →
    let coverage := (List.zipWith (fun axis r => max 0
      (min (r.start + r.size) axis.outerStop - max r.start axis.outerStart)) axes region).prod
    0 ≤ coverage ∧ coverage ≤ Hypercube.size region
      ∧ (coverage = Hypercube.size region → Hypercube.Within region (box axes))
  | [], [], _, _ => by simp [Hypercube.size, Hypercube.Within, box]
  | axis :: axes, r :: region, hl, he => by
    have he' : ¬ r.isEmpty ∧ ¬ Hypercube.isEmpty region := by
      simpa [Hypercube.isEmpty, not_or] using he
    obtain ⟨h0, hle, hw⟩ := @within_box_of_coverage axes region (by simpa using hl) he'.2
    have hc := coverage_le axis he'.1
    have hr := Range.size_pos_iff.2 he'.1
    have hs := Hypercube.size_pos_of_nonempty he'.2
    have hsize : Hypercube.size (r :: region) = r.size * Hypercube.size region := by
      simp [Hypercube.size]
    have hc0 := le_max_left 0 (min (r.start + r.size) axis.outerStop - max r.start axis.outerStart)
    rw [List.zipWith_cons_cons, List.prod_cons, hsize]
    generalize hx : max 0 (min (r.start + r.size) axis.outerStop - max r.start axis.outerStart) = x
      at *
    refine ⟨mul_nonneg hc0 h0, mul_le_mul hc hle h0 hr.le, fun heq => ?_⟩
    have hxr : x = r.size := by
      by_contra hne
      have : x * Hypercube.size region < r.size * Hypercube.size region :=
        mul_lt_mul_of_pos_right (by omega) hs
      have := mul_le_mul_of_nonneg_left hle hc0
      omega
    rw [hxr] at heq
    refine .cons ?_ (hw (mul_left_cancel₀ hr.ne' heq))
    rw [Range.size_of_not_isEmpty he'.1] at hx hxr hr
    dsimp only
    omega

open Grid in
/-- `esdmI_grid_coverRegionOverhead` finds its intervals in a region that lies in the domain. -/
theorem coverAndFetchedSize_eq_ok : ∀ {axes : List Axis} {region : Hypercube},
    (∀ axis ∈ axes, Axis.Proper axis) → ¬ Hypercube.isEmpty region →
    Hypercube.Within region (box axes) → ∃ sizes, coverAndFetchedSize axes region = .ok sizes
  | [], [], _, _, _ => ⟨_, rfl⟩
  | axis :: axes, r :: region, hp, he, hw => by
    have he' : ¬ r.isEmpty ∧ ¬ Hypercube.isEmpty region := by
      simpa [Hypercube.isEmpty, not_or] using he
    obtain ⟨h1, h2⟩ := List.forall₂_cons.1 hw
    have hpa := hp axis (by simp)
    obtain ⟨sizes, hsizes⟩ :=
      coverAndFetchedSize_eq_ok (fun a ha => hp a (by simp [ha])) he'.2 h2
    have hsize := Range.size_of_not_isEmpty he'.1
    have hne := he'.1
    unfold Range.isEmpty at hne
    dsimp only at h1
    obtain ⟨i, hi, hai⟩ := hpa.findInterval_eq_ok (x := max r.start axis.outerStart) (by omega)
      (by omega)
    obtain ⟨j, hj, haj⟩ := hpa.findInterval_eq_ok
      (x := min (r.start + r.size) axis.outerStop - 1) (by omega) (by omega)
    obtain ⟨-, y, -, hy, -⟩ := hai
    obtain ⟨-, -, z, -, hz, -⟩ := haj
    have hz' : axis.bound ((j : ℤ) + 1) = .ok z := by
      rw [← Nat.cast_add_one]
      exact Axis.bound_natCast.2 hz
    rw [coverAndFetchedSize]
    simp only [hi, hj, Outcome.ok_bind, Axis.bound_natCast.2 hy, hz', hsizes, Outcome.pure_eq]
    rw [eassert_of (by omega), eassert_of (by omega)]
    exact ⟨_, rfl⟩

open Grid in
/-- The grid that is chosen encloses the region. -/
theorem bestGrid_spec (hF : Forest ds.dims none ds.gridHeap)
    (hG : Geometry ds.table ds.gridHeap) (hr : region.length = ds.dims)
    (he : ¬ Hypercube.isEmpty region) :
    ∀ (grids : List ℕ) (best : Option ℕ) (smallest : ℤ),
      (∀ g ∈ grids, ∃ grid, ds.gridHeap[g]? = some grid ∧ grid.done = true) →
      ∃ best', ds.bestGrid region grids best smallest = .ok best' ∧ (best' = best ∨
        ∃ g ∈ grids, best' = some g ∧ ∃ grid, ds.gridHeap[g]? = some grid ∧ grid.done = true
          ∧ Hypercube.Within region (box grid.axes))
  | [], best, _, _ => ⟨best, rfl, .inl rfl⟩
  | g :: grids, best, smallest, hall => by
    obtain ⟨grid, hg, hd⟩ := hall g (by simp)
    have ih := fun best smallest => bestGrid_spec hF hG hr he grids best smallest
      fun h hh => hall h (by simp [hh])
    have hlen : region.length = grid.dimCount := hr.trans (hF.node hg).axes.symm
    have hcov := within_box_of_coverage hlen he
    rw [bestGrid, grid_eq_ok.2 hg, Outcome.ok_bind, coverRegionSize, eassert_of hlen]
    simp only [Outcome.ok_bind, Outcome.pure_eq]
    split_ifs with hsize
    · have hw := hcov.2.2 hsize
      obtain ⟨sizes, hsizes⟩ :=
        coverAndFetchedSize_eq_ok (hG.proper_of_done hF _ g le_rfl hg hd) he hw
      rw [coverRegionOverhead, eassert_of hlen]
      simp only [Outcome.ok_bind, Outcome.pure_eq, hsizes]
      split_ifs
      · obtain ⟨best', heq, hb | ⟨h, hh, hb⟩⟩ := ih (some g) (sizes.2 - sizes.1)
        · exact ⟨best', heq, .inr ⟨g, by simp, hb, grid, hg, hd, hw⟩⟩
        · exact ⟨best', heq, .inr ⟨h, by simp [hh], hb⟩⟩
      · obtain ⟨best', heq, hb | ⟨h, hh, hb⟩⟩ := ih best smallest
        · exact ⟨best', heq, .inl hb⟩
        · exact ⟨best', heq, .inr ⟨h, by simp [hh], hb⟩⟩
    · obtain ⟨best', heq, hb | ⟨h, hh, hb⟩⟩ := ih best smallest
      · exact ⟨best', heq, .inl hb⟩
      · exact ⟨best', heq, .inr ⟨h, by simp [hh], hb⟩⟩

end BestGrid

section Covering

/-- Subtracting fragments of the table leaves the points that lie in none of them. -/
theorem subtractFragments_eq_ok (hw : TableWf ds) (hs : HypercubeSet.Wf ds.dims ds.shapes) :
    ∀ (fragments : List ℕ) {uncovered : HypercubeSet}, HypercubeSet.Wf ds.dims uncovered →
      (∀ r ∈ fragments, ∃ e ∈ ds.table, e.2 = r) →
      ∃ rest, ds.subtractFragments uncovered fragments = .ok rest ∧ HypercubeSet.Wf ds.dims rest
        ∧ ∀ p, p ∈ HypercubeSet.points rest ↔ p ∈ HypercubeSet.points uncovered
          ∧ ¬ ∃ e ∈ ds.table, e.2 ∈ fragments ∧ p ∈ Hypercube.points e.1
  | [], uncovered, hu, _ => ⟨uncovered, rfl, hu, by simp⟩
  | r :: fragments, uncovered, hu, hr => by
    obtain ⟨⟨s, r⟩, he, rfl⟩ := hr r (by simp)
    obtain ⟨f, hf, rfl⟩ := hw.fragment_eq he
    obtain ⟨hu', hp'⟩ := HypercubeSet.subtract_spec hu (hs _ (mem_shapes.2 ⟨_, he⟩)).1
    obtain ⟨rest, heq, hrest, hp⟩ := subtractFragments_eq_ok hw hs fragments hu'
      fun r hr' => hr r (by simp [hr'])
    refine ⟨rest, by rw [subtractFragments, hf]; exact heq, hrest, fun p => ?_⟩
    rw [hp, hp', Set.mem_sdiff, and_assoc, and_congr_right_iff]
    intro _
    constructor
    · rintro ⟨hnot, hrest⟩ ⟨e, he', hm, hpe⟩
      rcases List.mem_cons.1 hm with hm | hm
      · obtain rfl := hw.eq_of_ref_eq he' he hm
        exact hnot hpe
      · exact hrest ⟨e, he', hm, hpe⟩
    · intro h
      refine ⟨fun hps => h ⟨_, he, by simp, hps⟩, ?_⟩
      rintro ⟨e, he', hm, hpe⟩
      exact h ⟨e, he', by simp [hm], hpe⟩

/-- What is looked up in the table for a region: each fragment that has a point in common with it,
unless one has its shape. -/
theorem makeSetCoveringRegion_spec (env : Env V) (hw : TableWf ds)
    (hs : HypercubeSet.Wf ds.dims ds.shapes) (hr : region.length = ds.dims) :
    (ds.makeSetCoveringRegion env region).Nodup
      ∧ (∀ r ∈ ds.makeSetCoveringRegion env region, ∃ e ∈ ds.table, e.2 = r)
      ∧ ∀ p ∈ Hypercube.points region, p ∈ ds.covered →
        ∃ e ∈ ds.table, e.2 ∈ ds.makeSetCoveringRegion env region ∧ p ∈ Hypercube.points e.1 := by
  unfold makeSetCoveringRegion
  rcases hl : ds.lookupForShape region with _ | r
  · have hperm := env.order_perm ds.table
    dsimp only
    refine ⟨?_, ?_, ?_⟩
    · refine List.Nodup.map_on ?_ ((hperm.nodup_iff.2 hw.nodup.of_map).filter _)
      intro e he e' he'
      exact hw.eq_of_ref_eq (hperm.mem_iff.1 (List.mem_filter.1 he).1)
        (hperm.mem_iff.1 (List.mem_filter.1 he').1)
    · intro r hr
      obtain ⟨e, he, rfl⟩ := List.mem_map.1 hr
      exact ⟨e, hperm.mem_iff.1 (List.mem_filter.1 he).1, rfl⟩
    · rintro p hp ⟨e, he, hpe⟩
      have hlen : e.1.length = region.length := by
        rw [(hs _ (mem_shapes.2 ⟨e.2, he⟩)).1, hr]
      have hover : Hypercube.overlap e.1 region ≠ 0 :=
        Hypercube.overlap_ne_zero_iff.2 ((Hypercube.doesIntersect_iff hlen).2 ⟨p, hpe, hp⟩)
      exact ⟨e, he, List.mem_map.2 ⟨e, List.mem_filter.2 ⟨hperm.mem_iff.2 he, by simpa using hover⟩,
        rfl⟩, hpe⟩
  · have he := mem_of_lookupForShape hl
    refine ⟨by simp, fun r' hr' => ⟨_, he, (List.mem_singleton.1 hr').symm⟩, fun p hp _ => ?_⟩
    exact ⟨_, he, by simp, hp⟩

/-- What the caller of `esdmI_dataset_fragmentsCoveringRegion` may rely on. -/
structure Covers (ds : Dataset V) (region : Hypercube) (c : Covering) : Prop where
  nodup : c.fragments.Nodup
  registered : ∀ r ∈ c.fragments, ∃ f, ds.fragment r = .ok f ∧ (f.shape, r) ∈ ds.table
  uncovered : ∀ p, p ∈ HypercubeSet.points c.uncovered ↔ p ∈ Hypercube.points region
    ∧ ∀ r ∈ c.fragments, ∀ f, ds.fragment r = .ok f → p ∉ Hypercube.points f.shape
  hole : ∀ p ∈ HypercubeSet.points c.uncovered, p ∉ ds.covered
  wf : HypercubeSet.Wf ds.dims c.uncovered
  fullyCovered : c.fullyCovered = true ↔ Hypercube.points region ⊆ ds.covered

/-- The points that are left, and those of the region that lie in no fragment, are the same. -/
theorem Covers.mem_uncovered {c : Covering} (hc : Covers ds region c) {p : List ℤ} :
    p ∈ HypercubeSet.points c.uncovered ↔ p ∈ Hypercube.points region ∧ p ∉ ds.covered := by
  constructor
  · exact fun hp => ⟨((hc.uncovered p).1 hp).1, hc.hole p hp⟩
  · rintro ⟨hp, hno⟩
    refine (hc.uncovered p).2 ⟨hp, fun r hr f hf hpf => hno ?_⟩
    obtain ⟨f', hf', he⟩ := hc.registered r hr
    obtain rfl := Except.ok.inj (hf.symm.trans hf')
    exact ⟨_, he, hpf⟩

/-- Being in no fragment is the same by the table's shapes and by the fragments' own. -/
theorem notMem_fragments_iff (hw : TableWf ds) {fragments : List ℕ}
    (hreg : ∀ r ∈ fragments, ∃ e ∈ ds.table, e.2 = r) {p : List ℤ} :
    (¬ ∃ e ∈ ds.table, e.2 ∈ fragments ∧ p ∈ Hypercube.points e.1)
      ↔ ∀ r ∈ fragments, ∀ f, ds.fragment r = .ok f → p ∉ Hypercube.points f.shape := by
  constructor
  · intro h r hr f hf hp
    obtain ⟨⟨s, r⟩, he, rfl⟩ := hreg r hr
    obtain ⟨f', hf', rfl⟩ := hw.fragment_eq he
    obtain rfl := Except.ok.inj (hf.symm.trans hf')
    exact h ⟨_, he, hr, hp⟩
  · rintro h ⟨⟨s, r⟩, he, hr, hp⟩
    obtain ⟨f, hf, rfl⟩ := hw.fragment_eq he
    exact h r hr f hf hp

theorem covers_of_table (hw : TableWf ds) {fragments : List ℕ} {rest : HypercubeSet}
    (hn : fragments.Nodup)
    (hreg : ∀ r ∈ fragments, ∃ e ∈ ds.table, e.2 = r) (hwf : HypercubeSet.Wf ds.dims rest)
    (hall : ∀ p ∈ Hypercube.points region, p ∈ ds.covered →
      ∃ e ∈ ds.table, e.2 ∈ fragments ∧ p ∈ Hypercube.points e.1)
    (hu : ∀ p, p ∈ HypercubeSet.points rest ↔ p ∈ Hypercube.points region
      ∧ ¬ ∃ e ∈ ds.table, e.2 ∈ fragments ∧ p ∈ Hypercube.points e.1) :
    Covers ds region ⟨fragments, rest, decide (rest = [])⟩ := by
  refine ⟨hn, fun r hr => ?_, fun p => ?_, fun p hp hc => ?_, hwf, ?_⟩
  · obtain ⟨⟨s, r⟩, he, rfl⟩ := hreg r hr
    obtain ⟨f, hf, rfl⟩ := hw.fragment_eq he
    exact ⟨f, hf, he⟩
  · rw [hu, notMem_fragments_iff hw hreg]
  · obtain ⟨hpr, hno⟩ := (hu p).1 hp
    exact hno (hall p hpr hc)
  · rw [decide_eq_true_iff, ← HypercubeSet.points_eq_empty_iff hwf]
    constructor
    · intro hempty p hp
      by_contra hno
      have : p ∈ HypercubeSet.points rest :=
        (hu p).2 ⟨hp, fun ⟨e, he, _, hpe⟩ => hno ⟨e, he, hpe⟩⟩
      rw [hempty] at this
      exact this
    · intro hsub
      refine Set.eq_empty_iff_forall_notMem.2 fun p hp => ?_
      obtain ⟨hpr, hno⟩ := (hu p).1 hp
      exact hno (hall p hpr (hsub hpr))

/-- The path through the table. -/
theorem fragmentsCoverRegion_spec (env : Env V) (hw : TableWf ds)
    (hs : HypercubeSet.Wf ds.dims ds.shapes) (hr : region.length = ds.dims)
    (he : ¬ Hypercube.isEmpty region) :
    ∃ full rest, ds.fragmentsCoverRegion region (ds.makeSetCoveringRegion env region)
        = .ok (full, rest)
      ∧ Covers ds region ⟨ds.makeSetCoveringRegion env region, rest, full⟩ := by
  obtain ⟨hn, hreg, hall⟩ := makeSetCoveringRegion_spec env hw hs hr
  have hwf : HypercubeSet.Wf ds.dims [region] := by simpa [HypercubeSet.Wf] using ⟨hr, he⟩
  rw [fragmentsCoverRegion]
  split_ifs with hnil
  · rw [hnil] at hn hreg hall ⊢
    have hc := covers_of_table hw hn hreg hwf hall fun p => by simp
    exact ⟨_, _, rfl, by simpa using hc⟩
  · obtain ⟨rest, heq, hrest, hp⟩ := subtractFragments_eq_ok hw hs _ hwf hreg
    rw [heq, Outcome.ok_bind, HypercubeSet.isEmpty_eq hrest]
    exact ⟨_, _, rfl, covers_of_table hw hn hreg hrest hall (by simpa using hp)⟩

/-- `esdmI_dataset_fragmentsCoveringRegion` returns, with the right answer. -/
theorem fragmentsCoveringRegion_spec (env : Env V) (hI : Inv ds)
    (hG : Grid.Geometry ds.table ds.gridHeap) (hr : region.length = ds.dims)
    (he : ¬ Hypercube.isEmpty region) :
    ∃ c, ds.fragmentsCoveringRegion env region = .ok c ∧ Covers ds region c := by
  have hF := hI.grids.forest
  have hL := hI.grids.listed
  have hlisted : ∀ g ∈ ds.grids.take ds.gridCount,
      ∃ grid, ds.gridHeap[g]? = some grid ∧ grid.done = true := by
    intro g hg
    have hm := List.mem_of_mem_take hg
    have hlt := hL.valid g hm
    exact ⟨_, List.getElem?_eq_getElem hlt,
      (hL.complete (List.getElem?_eq_getElem hlt) hm).1 hg⟩
  obtain ⟨best, hbest, hcase⟩ := bestGrid_spec hF hG hr he _ none 0x7fffffffffffffff hlisted
  rw [fragmentsCoveringRegion, gridCoveringRegion, hbest]
  obtain rfl | ⟨g, -, rfl, grid, hg, hd, hwithin⟩ := hcase
  · obtain ⟨full, rest, heq, hc⟩ := fragmentsCoverRegion_spec env hI.table hI.shapes hr he
    exact ⟨_, by simp [heq], hc⟩
  · obtain ⟨p, hp⟩ := Hypercube.points_nonempty_iff.2 he
    have hsub := hwithin.points_subset
    obtain ⟨fragments, heq, hcol⟩ := fragmentsInRegionInternal_spec hI.table hF hG hr
      hg hd hp (hsub hp)
    obtain ⟨cs, hcs, -⟩ := Grid.done_iff.1 hd
    have hfr : ds.fragmentsInRegion g region = .ok (.success, fragments) := by
      rw [fragmentsInRegion, grid_eq_ok.2 hg, Outcome.ok_bind,
        eassert_of (show grid.cells ≠ none by simp [hcs]), Outcome.ok_bind, heq]
    have hreg : ∀ r ∈ fragments, ∃ e ∈ ds.table, e.2 = r := fun r hr => by
      obtain ⟨e, he, her, -⟩ := hcol.inside r hr
      exact ⟨e, he, her⟩
    have hall : ∀ p ∈ Hypercube.points region, p ∈ ds.covered →
        ∃ e ∈ ds.table, e.2 ∈ fragments ∧ p ∈ Hypercube.points e.1 :=
      fun p hp _ => hcol.covers p hp (hsub hp)
    refine ⟨⟨fragments, [], true⟩, by simp [hfr], ?_⟩
    exact covers_of_table hI.table hcol.nodup hreg (by simp [HypercubeSet.Wf]) hall fun p =>
      iff_of_false (by simp [HypercubeSet.points]) fun h => h.2 (hcol.covers p h.1 (hsub h.1))

end Covering

end Dataset

end Esdm
