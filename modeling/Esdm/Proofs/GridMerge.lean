import Esdm.Mpi
import Esdm.Proofs.RoundTrip

/-!
# Merging the copies of a grid

`esdmI_grid_mergeWithJson` fills the empty cells of a grid from the text of a copy, but looks for a
subgrid under another key than `esdmI_grid_serialize` writes.  So the cells of the grid itself are
merged, and those of its subgrids are not: nothing gets lost exactly if the subgrids have all that
the copies' subgrids have (`mpiGridCommit_mergesAll_iff`).
-/

namespace Esdm

variable {V : Type}

namespace Dataset

variable {ds ds' ds₁ x : Dataset V} {env : Env V} {g : ℕ} {grid : Grid} {cs cs' : List GridEntry}

section Filled

/-- The cell at the given place has a fragment. -/
def FilledIn (cs : List GridEntry) (i : ℕ) : Prop := ∃ c, cs[i]? = some c ∧ c.fragment ≠ none

/-- The cells of a grid, if it is there and has been allocated. -/
def cellsAt (ds : Dataset V) (g : ℕ) : Option (List GridEntry) := ds.gridHeap[g]?.bind Grid.cells

/-- The leaf cell at the end of the path has a fragment.  A path has the places of the cells, from
the grid through its subgrids. -/
def FilledAt (ds : Dataset V) : ℕ → List ℕ → Prop
  | _, [] => False
  | g, [i] => ∃ cs, ds.cellsAt g = some cs ∧ FilledIn cs i
  | g, i :: path => ∃ cs c h, ds.cellsAt g = some cs ∧ cs[i]? = some c ∧ c.subgrid = some h
    ∧ FilledAt ds h path

theorem cellsAt_eq (hg : ds.gridHeap[g]? = some grid) : ds.cellsAt g = grid.cells := by
  rw [cellsAt, hg, Option.bind_some]

theorem filledAt_single (hcs : ds.cellsAt g = some cs) {i : ℕ} :
    FilledAt ds g [i] ↔ FilledIn cs i := by
  constructor
  · rintro ⟨cs', hcs', h⟩
    exact Option.some.inj (hcs.symm.trans hcs') ▸ h
  · exact fun h => ⟨cs, hcs, h⟩

theorem filledAt_cons {i j : ℕ} {path : List ℕ} : FilledAt ds g (i :: j :: path)
    ↔ ∃ cs c h, ds.cellsAt g = some cs ∧ cs[i]? = some c ∧ c.subgrid = some h
      ∧ FilledAt ds h (j :: path) := .rfl

theorem filledIn_set {c : GridEntry} {i r : ℕ} (hc : cs[i]? = some c) (j : ℕ) :
    FilledIn (cs.set i ⟨none, some r⟩) j ↔ FilledIn cs j ∨ j = i := by
  unfold FilledIn
  by_cases hij : i = j
  · subst hij
    rw [List.getElem?_set_self (List.getElem?_eq_some_iff.1 hc).1]
    simp
  · rw [List.getElem?_set_ne hij]
    simp [Ne.symm hij]

end Filled

section Merge

/-- The dataset `ds` while copies are merged into its grid `g`, which has got the cells `cs'`. -/
structure Merging (ds : Dataset V) (g : ℕ) (grid : Grid) (x : Dataset V) (cs' : List GridEntry) :
    Prop where
  table : TableWf x
  grids : GridInv none x
  dims : x.dims = ds.dims
  heap : x.gridHeap.map Grid.uncounted
    = (ds.gridHeap.set g { grid with cells := some cs' }).map Grid.uncounted

/-- The grid itself. -/
theorem Merging.node (h : Merging ds g grid x cs') (hg : ds.gridHeap[g]? = some grid) :
    ∃ n, x.gridHeap[g]? = some { grid with emptyCells := n, cells := some cs' } := by
  have hu := congrArg (·[g]?) h.heap
  simp only [List.getElem?_map, Grid.getElem?_set_of_some hg, if_true, Option.map_some] at hu
  obtain ⟨grid', hg', he⟩ := Option.map_eq_some_iff.1 hu
  refine ⟨grid'.emptyCells, hg'.trans (congrArg some ?_)⟩
  cases grid'
  simp only [Grid.uncounted, Grid.mk.injEq] at he ⊢
  simp [he]

/-- The other grids. -/
theorem Merging.other (h : Merging ds g grid x cs') (hg : ds.gridHeap[g]? = some grid) {k : ℕ}
    (hk : k ≠ g) : (x.gridHeap[k]?).map Grid.uncounted = (ds.gridHeap[k]?).map Grid.uncounted := by
  have hu := congrArg (·[k]?) h.heap
  simpa only [List.getElem?_map, Grid.getElem?_set_of_some hg, if_neg hk] using hu

theorem Merging.refl (hw : TableWf ds) (hI : GridInv none ds) (hg : ds.gridHeap[g]? = some grid)
    (hcs : grid.cells = some cs) : Merging ds g grid ds cs := by
  refine ⟨hw, hI, rfl, List.ext_getElem? fun k => ?_⟩
  rw [List.getElem?_map, List.getElem?_map, Grid.getElem?_set_of_some hg]
  split_ifs with hk
  · rw [hk, hg, Option.map_some, Option.map_some, ← hcs]
  · rfl

/-- A fragment is made, and put into an empty cell. -/
theorem Merging.fill (h : Merging ds g grid x cs') (hg : ds.gridHeap[g]? = some grid)
    {y : Dataset V} (hy : Grown x y) (hheap : y.gridHeap = x.gridHeap) {i : ℕ}
    (hc : cs'[i]? = some ⟨none, none⟩) (r : ℕ) :
    ∃ y', y.fillCell g i r = .ok y' ∧ Merging ds g grid y' (cs'.set i ⟨none, some r⟩) := by
  obtain ⟨n, hn⟩ := h.node hg
  have hsame : SameGrids x y := by
    rw [hy.eq]
    exact ⟨rfl, hheap, rfl, rfl, rfl⟩
  obtain ⟨y', heq, hI, heap, _, _, _, rfl, hu⟩ :=
    fillCell_spec (h.grids.congr hsame) (hheap ▸ hn) rfl hc r
  refine ⟨_, heq, (hy.tableWf h.table).congr rfl rfl, hI, hy.dims.trans h.dims, ?_⟩
  rw [hu, setCell, setGrid, hheap, List.map_set, h.heap, List.map_set, List.set_set, List.map_set]
  rfl

/-- One cell of a copy's text. -/
theorem mergeCell_spec {nested : ℕ → Json → Dataset V → Outcome (Status × Dataset V)}
    {D : ℕ → Json → Prop} (h : Merging ds g grid x cs') (hg : ds.gridHeap[g]? = some grid) {i : ℕ}
    {c' cc : GridEntry} (hc : cs'[i]? = some c') {j : Json} (hd : DescribesCell ds₁ D cc j)
    (hkind : c'.subgrid = none ↔ cc.subgrid = none)
    (hread : ∀ r f, cc.fragment = some r → ds₁.fragment r = .ok f → Readable env ds.dims f) :
    ∃ y cs'', mergeCell env nested g i j x = .ok (.success, y) ∧ Merging ds g grid y cs''
      ∧ cs''.map GridEntry.subgrid = cs'.map GridEntry.subgrid
      ∧ ∀ k, FilledIn cs'' k ↔ FilledIn cs' k ∨ (k = i ∧ cc.fragment ≠ none) := by
  obtain ⟨n, hn⟩ := h.node hg
  have hcell : Grid.cell { grid with emptyCells := n, cells := some cs' } i = .ok c' :=
    Grid.cell_eq_ok.2 ⟨by omega, cs', rfl, hc⟩
  have hx := (h.grids.forest.node hn).exclusive cs' rfl c' (List.mem_of_getElem? hc)
  unfold mergeCell
  rw [grid_eq_ok.2 hn, Outcome.ok_bind, hcell, Outcome.ok_bind, eassert_of hx.symm, Outcome.ok_bind]
  obtain ⟨sub, frag⟩ := c'
  rcases frag with _ | r
  · rcases sub with _ | k
    · -- an empty leaf cell
      have hleaf : cc.subgrid = none := hkind.1 rfl
      rcases hd with ⟨k, jk, rfl, -⟩ | ⟨r, f, jf, rfl, hf, hjf, rfl⟩ | ⟨rfl, rfl⟩
      · cases hleaf
      · obtain ⟨y, o, heq, hgrown, hheap, hacc, -⟩ :=
          @createFragmentFromMetadata_spec V x env jf h.table
        have hr : Readable env x.dims f := h.dims ▸ hread r f rfl hf
        obtain ⟨r', rfl⟩ := Option.ne_none_iff_exists'.1 (hacc.2 (hr.acceptable hjf))
        obtain ⟨id, b, -, -, rfl⟩ := Fragment.metadataCreate_eq_ok hjf
        obtain ⟨y', hfill, hm⟩ := h.fill hg hgrown hheap hc r'
        refine ⟨y', _, by simp [heq, hfill], hm, ?_, fun k => ?_⟩
        · exact Grid.map_subgrid_set hc _ rfl
        · rw [filledIn_set hc]
          simp
      · exact ⟨x, cs', by simp, h, rfl, by simp⟩
    · -- a subgrid, which the copy's text has under another key
      obtain ⟨subgrid, hs⟩ : ∃ subgrid, x.gridHeap[k]? = some subgrid :=
        ⟨_, (h.grids.forest.child hn (Grid.mem_subgrids.2
          ⟨cs', rfl, _, List.mem_of_getElem? hc, rfl⟩)).2.choose_spec.1⟩
      rcases hd with ⟨k', jk, rfl, -, rfl⟩ | ⟨r, f, jf, rfl, -⟩ | ⟨rfl, -⟩
      · refine ⟨x, cs', ?_, h, rfl, by simp⟩
        dsimp only
        rw [grid_eq_ok.2 hs, Outcome.ok_bind]
        by_cases he : subgrid.emptyCells = 0
        · rw [if_pos he]
          rfl
        · rw [if_neg he]
          simp
      · exact absurd (hkind.2 rfl) (by simp)
      · exact absurd (hkind.2 rfl) (by simp)
  · -- a leaf cell that is filled already
    refine ⟨x, cs', rfl, h, rfl, fun k => ?_⟩
    constructor
    · exact .inl
    · rintro (hf | ⟨rfl, -⟩)
      · exact hf
      · exact ⟨_, hc, by simp⟩

theorem filledIn_cons {c : GridEntry} {i k : ℕ} : i ≤ k ∧ FilledIn (c :: cs) (k - i)
    ↔ (k = i ∧ c.fragment ≠ none) ∨ (i + 1 ≤ k ∧ FilledIn cs (k - (i + 1))) := by
  rcases lt_trichotomy i k with hlt | rfl | hlt
  · have hk : k - i = (k - (i + 1)) + 1 := by omega
    simp [hk, FilledIn, hlt.le, hlt.ne', Nat.succ_le_of_lt hlt]
  · simp [FilledIn]
  · simp only [not_le.2 hlt, hlt.ne, false_and, false_or, false_iff, not_and]
    omega

/-- The cells of a copy's text, from the given place on. -/
theorem mergeCells_spec {nested : ℕ → Json → Dataset V → Outcome (Status × Dataset V)}
    {D : ℕ → Json → Prop} (hg : ds.gridHeap[g]? = some grid) {ccs : List GridEntry}
    {cells : List Json} (hd : List.Forall₂ (DescribesCell ds₁ D) ccs cells)
    (hread : ∀ c ∈ ccs, ∀ r f, c.fragment = some r → ds₁.fragment r = .ok f →
      Readable env ds.dims f) {i : ℕ} (h : Merging ds g grid x cs')
    (hkind : List.Forall₂ (fun (o : Option ℕ) (cc : GridEntry) => o = none ↔ cc.subgrid = none)
      ((cs'.map GridEntry.subgrid).drop i) ccs) :
    ∃ y cs₂, mergeCells env nested g i cells x = .ok (.success, y) ∧ Merging ds g grid y cs₂
      ∧ cs₂.map GridEntry.subgrid = cs'.map GridEntry.subgrid
      ∧ ∀ k, FilledIn cs₂ k ↔ FilledIn cs' k ∨ (i ≤ k ∧ FilledIn ccs (k - i)) := by
  induction hd generalizing i x cs' with
  | nil => exact ⟨x, cs', rfl, h, rfl, by simp [FilledIn]⟩
  | @cons cc j ccs cells hcell _ ih =>
    obtain ⟨o, rest, ho, hrest, hdrop⟩ := List.forall₂_cons_right_iff.1 hkind
    obtain ⟨c', hc, rfl⟩ : ∃ c', cs'[i]? = some c' ∧ c'.subgrid = o := by
      have := congrArg (·[0]?) hdrop
      simpa [List.getElem?_drop] using this
    have htail : (cs'.map GridEntry.subgrid).drop (i + 1) = rest := by
      have := congrArg List.tail hdrop
      rwa [List.tail_drop, List.tail_cons] at this
    obtain ⟨y, cs₁, heq, hm, hmap, hfill⟩ := @mergeCell_spec V ds ds₁ x env g grid cs' nested D h hg
      i c' cc hc j hcell ho (hread cc List.mem_cons_self)
    obtain ⟨y', cs₂, heq', hm', hmap', hfill'⟩ :=
      ih (fun c hc => hread c (List.mem_cons_of_mem _ hc)) (i := i + 1) hm
        (by rw [hmap, htail]; exact hrest)
    refine ⟨y', cs₂, ?_, hm', hmap'.trans hmap, fun k => ?_⟩
    · rw [mergeCells, heq, Outcome.ok_bind]
      exact heq'
    · rw [hfill', hfill, filledIn_cons, or_assoc]

end Merge

section Copies

/-- What a grid and its copies have in common. -/
structure SameStructure (grid grid' : Grid) : Prop where
  id : grid'.id = grid.id
  named : grid.id ≠ none
  axes : grid'.axes = grid.axes

/-- A copy of a grid in the dataset of another rank, with its text. -/
structure GridCopy (V : Type) where
  env : Env V
  dataset : Dataset V
  grid : ℕ
  json : Json

/-- The copy has the grid's structure, whatever is in its leaf cells.  Its fragments have been
stored on backends that are there. -/
structure IsCopy (env : Env V) (ds : Dataset V) (g : ℕ) (c : GridCopy V) : Prop where
  mirrors : ∃ n, Mirrors SameStructure (fun _ _ => True) ds c.dataset n g c.grid
  full : CellsFull c.dataset
  text : ∃ ds₁, gridSerialize c.env c.dataset.gridHeap.length c.grid c.dataset = .ok (ds₁, c.json)
  readable : Grid.Nested (CellsReadable env ds.dims c.dataset) c.dataset.gridHeap c.grid

/-- Merging one copy. -/
theorem IsCopy.merge {c : GridCopy V} (hc : IsCopy env ds g c) (hg : ds.gridHeap[g]? = some grid)
    (hcs : grid.cells = some cs) (h : Merging ds g grid x cs')
    (hmap : cs'.map GridEntry.subgrid = cs.map GridEntry.subgrid) :
    ∃ y cs₂, gridMergeWithString env g c.json x = .ok (.success, y) ∧ Merging ds g grid y cs₂
      ∧ cs₂.map GridEntry.subgrid = cs.map GridEntry.subgrid
      ∧ ∀ k, FilledIn cs₂ k ↔ FilledIn cs' k ∨ FilledAt c.dataset c.grid [k] := by
  obtain ⟨⟨n, hmir⟩, hfull, ⟨ds₁, hser⟩, hread⟩ := hc
  obtain ⟨hfix, hdesc⟩ := gridSerialize_describes hfull hser
  rcases n with _ | n
  · exact hmir.elim
  obtain ⟨grid₀, grid', cs₀, ccs, hg₀, hg', hcs₀, hccs, hsame, hcells⟩ := hmir
  obtain rfl := Option.some.inj (hg.symm.trans hg₀)
  obtain rfl := Option.some.inj (hcs.symm.trans hcs₀)
  obtain ⟨id, hid⟩ := Option.ne_none_iff_exists'.1 hsame.named
  have hid' : grid'.id = some id := hsame.id.trans hid
  have hg₁ : ds₁.gridHeap[c.grid]? = some grid' :=
    hfix.getElem? hg' (by simp [hccs]) (by simp [hid'])
  -- the text is about these cells
  obtain ⟨m, hm⟩ : ∃ m, c.dataset.gridHeap.length = m + 1 :=
    Nat.exists_eq_add_one_of_ne_zero fun h0 => by
      have := (List.getElem?_eq_some_iff.1 hg').1
      omega
  rw [hm] at hdesc
  obtain ⟨grid₂, id₂, ccs₂, cells, hg₂, hid₂, hccs₂, hjson, hdcells⟩ := hdesc
  obtain rfl := Option.some.inj (hg₁.symm.trans hg₂)
  obtain rfl := Option.some.inj (hid'.symm.trans hid₂)
  obtain rfl := Option.some.inj (hccs.symm.trans hccs₂)
  obtain ⟨e, hn⟩ := h.node hg
  have hlen : (cells.length : ℤ) = grid.cellCount := by
    rw [← hdcells.length_eq, hfull c.grid grid' ccs hg' hccs, Grid.cellCount, hsame.axes,
      Grid.cellCount]
  have hkind : List.Forall₂ (fun (o : Option ℕ) (cc : GridEntry) => o = none ↔ cc.subgrid = none)
      ((cs'.map GridEntry.subgrid).drop 0) ccs := by
    rw [List.drop_zero, hmap, List.forall₂_map_left_iff]
    refine hcells.imp fun c cc hc => ?_
    rcases hc with ⟨h1, h2, -⟩ | ⟨k, k', rfl, rfl, -⟩
    · simp [h1, h2]
    · simp
  have hreadc : ∀ c' ∈ ccs, ∀ r f, c'.fragment = some r → ds₁.fragment r = .ok f →
      Readable env ds.dims f := fun c' hc' r f hr hf =>
    hread c.grid grid' .refl hg' ccs c' r f hccs hc' hr ((hfix.fragment r).symm.trans hf)
  obtain ⟨y, cs₂, heq, hm', hmap', hfill⟩ := @mergeCells_spec V ds ds₁ x env g grid cs'
    (gridMergeWithJson env c.json.depth) _ hg ccs cells hdcells hreadc 0 h hkind
  refine ⟨y, cs₂, ?_, hm', hmap'.trans hmap, fun k => ?_⟩
  · have hidj : (c.json.get "id" >>= Json.str?) = some id := by simp [hjson]
    have hgridj : (c.json.get "grid" >>= Json.elements?) = some cells := by simp [hjson]
    rw [gridMergeWithString, gridMergeWithJson, grid_eq_ok.2 hn, Outcome.ok_bind,
      eassert_of (by simp [hid]), Outcome.ok_bind, eassert_of (by simp), Outcome.ok_bind, hidj]
    dsimp only
    rw [if_neg (by simp [hid]), hgridj]
    exact (if_neg (not_not.2 hlen)).trans heq
  · rw [hfill, filledAt_single ((cellsAt_eq hg').trans hccs)]
    simp

/-- Merging one copy after another. -/
theorem mpiGridCommit_spec (hg : ds.gridHeap[g]? = some grid) (hcs : grid.cells = some cs) :
    ∀ {copies : List (GridCopy V)} {x : Dataset V} {cs' : List GridEntry},
      (∀ c ∈ copies, IsCopy env ds g c) → Merging ds g grid x cs' →
      cs'.map GridEntry.subgrid = cs.map GridEntry.subgrid →
      ∃ y cs₂, mpiGridCommit env g (copies.map GridCopy.json) x = .ok (.success, y)
        ∧ Merging ds g grid y cs₂ ∧ cs₂.map GridEntry.subgrid = cs.map GridEntry.subgrid
        ∧ ∀ k, FilledIn cs₂ k ↔ FilledIn cs' k ∨ ∃ c ∈ copies, FilledAt c.dataset c.grid [k]
  | [], x, cs', _, h, hmap => ⟨x, cs', rfl, h, hmap, by simp⟩
  | c :: copies, x, cs', hc, h, hmap => by
    obtain ⟨y, cs₁, heq, hm, hmap₁, hfill⟩ := (hc c List.mem_cons_self).merge hg hcs h hmap
    obtain ⟨y', cs₂, heq', hm', hmap₂, hfill'⟩ :=
      mpiGridCommit_spec hg hcs (fun c hc' => hc c (List.mem_cons_of_mem _ hc')) hm hmap₁
    refine ⟨y', cs₂, ?_, hm', hmap₂, fun k => ?_⟩
    · rw [List.map_cons, mpiGridCommit, heq, Outcome.ok_bind]
      exact heq'
    · rw [hfill', hfill, or_assoc, List.exists_mem_cons_iff]

/-- Nothing happens to the cells of the subgrids. -/
theorem Merging.filledAt_of_lt (h : Merging ds g grid x cs') (hg : ds.gridHeap[g]? = some grid)
    {dims : ℕ} (hF : Grid.Forest dims none ds.gridHeap) : ∀ {path : List ℕ} {k : ℕ}, g < k →
      (FilledAt x k path ↔ FilledAt ds k path) := by
  have hcells : ∀ {k : ℕ}, g < k → x.cellsAt k = ds.cellsAt k := by
    intro k hk
    have hu := congrArg (fun o : Option Grid => o.bind Grid.cells) (h.other hg hk.ne')
    simpa [cellsAt, Option.bind_map, Function.comp_def, Grid.uncounted] using hu
  intro path
  induction path with
  | nil => exact fun _ => .rfl
  | cons i path ih =>
    intro k hk
    rcases path with _ | ⟨j, path⟩
    · simp only [FilledAt, hcells hk]
    · rw [filledAt_cons, filledAt_cons, hcells hk]
      refine exists_congr fun cs₁ => exists_congr fun c => exists_congr fun h' =>
        and_congr_right fun hcs₁ => and_congr_right fun hc => and_congr_right fun hh => ih ?_
      obtain ⟨sub, hsub, hcs₁⟩ := Option.bind_eq_some_iff.1 hcs₁
      exact hk.trans (hF.child hsub
        (Grid.mem_subgrids.2 ⟨cs₁, hcs₁, c, List.mem_of_getElem? hc, hh⟩)).1

theorem Merging.filledAt_cons_iff (h : Merging ds g grid x cs')
    (hg : ds.gridHeap[g]? = some grid) (hcs : grid.cells = some cs)
    (hmap : cs'.map GridEntry.subgrid = cs.map GridEntry.subgrid) {dims : ℕ}
    (hF : Grid.Forest dims none ds.gridHeap) {i j : ℕ} {path : List ℕ} :
    FilledAt x g (i :: j :: path) ↔ FilledAt ds g (i :: j :: path) := by
  obtain ⟨n, hn⟩ := h.node hg
  have hx : x.cellsAt g = some cs' := cellsAt_eq hn
  have hds : ds.cellsAt g = some cs := (cellsAt_eq hg).trans hcs
  have hsub : ∀ k, (∃ c, cs'[i]? = some c ∧ c.subgrid = some k)
      ↔ ∃ c, cs[i]? = some c ∧ c.subgrid = some k := by
    intro k
    have := congrArg (·[i]?) hmap
    simp only [List.getElem?_map] at this
    rw [← Option.map_eq_some_iff, ← Option.map_eq_some_iff, this]
  have hlt : ∀ {c : GridEntry} {k : ℕ}, cs[i]? = some c → c.subgrid = some k → g < k :=
    fun hc hk => (hF.child hg
      (Grid.mem_subgrids.2 ⟨cs, hcs, _, List.mem_of_getElem? hc, hk⟩)).1
  simp only [filledAt_cons, hx, hds, Option.some.injEq, exists_and_left, exists_eq_left']
  constructor
  · rintro ⟨c, hc, k, hk, hf⟩
    obtain ⟨c₁, hc₁, hk₁⟩ := (hsub k).1 ⟨c, hc, hk⟩
    exact ⟨c₁, hc₁, k, hk₁, (h.filledAt_of_lt hg hF (hlt hc₁ hk₁)).1 hf⟩
  · rintro ⟨c, hc, k, hk, hf⟩
    obtain ⟨c₁, hc₁, hk₁⟩ := (hsub k).2 ⟨c, hc, hk⟩
    exact ⟨c₁, hc₁, k, hk₁, (h.filledAt_of_lt hg hF (hlt hc hk)).2 hf⟩

end Copies

section Counters

/-- The counters of a grid and of those nested in it are the numbers of the cells that lack a
fragment or a complete subgrid. -/
def CountersRight (ds : Dataset V) (g : ℕ) : Prop :=
  Grid.Nested (fun sub => ∀ cs, sub.cells = some cs →
    sub.emptyCells = Grid.emptyCellCount ds.gridHeap cs) ds.gridHeap g

/-- Where the counters are right, no subgrid is without cells: it would be complete, and yet its
cell would count as empty. -/
theorem CountersRight.cells_ne_nil {dims : ℕ} (h : CountersRight ds g)
    (hF : Grid.Forest dims none ds.gridHeap) : Grid.Nested (fun sub => ∀ k ∈ sub.subgrids, ∀ kid,
      ds.gridHeap[k]? = some kid → kid.cells ≠ some []) ds.gridHeap g := by
  intro j sub hj hsub k hk kid hkid hnil
  obtain ⟨cs, hcs, c, hc, hck⟩ := Grid.mem_subgrids.1 hk
  have hfrag : c.fragment = none :=
    ((hF.node hsub).exclusive cs hcs c hc).resolve_left (by simp [hck])
  have h0 : kid.emptyCells = 0 := by simp [hF.count hkid hnil, Grid.openCells]
  have hcount : Grid.emptyCellCount ds.gridHeap cs = Grid.openCells ds.gridHeap cs := by
    have := (h j sub hj hsub cs hcs).symm.trans (hF.count hsub hcs)
    simpa using this
  unfold Grid.emptyCellCount Grid.openCells at hcount
  have hle : ∀ c' : GridEntry, decide (c'.fragment = none
      ∧ ∀ s ∈ c'.subgrid.bind fun h => ds.gridHeap[h]?, ¬ s.Complete) = true →
      (!Grid.cellDone ds.gridHeap c') = true := by
    intro c' hc'
    obtain ⟨hf, hno⟩ := of_decide_eq_true hc'
    rw [Bool.not_eq_true', Bool.eq_false_iff, ne_eq, Grid.cellDone_iff]
    rintro (hfr | ⟨k', s, hk', hs, hd⟩)
    · exact hfr hf
    · obtain ⟨cs', hcs', -, h0'⟩ := Grid.done_iff.1 hd
      exact hno s (by simp [hk', hs]) ⟨by simp [hcs'], h0'⟩
  -- the cells that lack something are all that count as empty
  rw [List.countP_eq_length_filter, List.countP_eq_length_filter] at hcount
  have hsame := (List.monotone_filter_right cs hle).eq_of_length hcount
  have hopen : c ∈ cs.filter fun c => !Grid.cellDone ds.gridHeap c := by
    rw [List.mem_filter]
    refine ⟨hc, ?_⟩
    simp [Grid.cellDone, hfrag, hck, hkid, Grid.done, hnil]
  rw [← hsame, List.mem_filter] at hopen
  exact (of_decide_eq_true hopen.2).2 kid (by simp [hck, hkid]) ⟨by simp [hnil], h0⟩

end Counters

section Commit

/-- Whatever the order of the copies, all of them are merged: the leaf cells that are filled in the
end are those that were in the grid or in a copy, and the counters are right. -/
def MergesAll (env : Env V) (ds : Dataset V) (g : ℕ) (copies : List (GridCopy V)) : Prop :=
  ∀ order : List (GridCopy V), order.Perm copies →
    ∃ ds', mpiGridCommit env g (order.map GridCopy.json) ds = .ok (.success, ds')
      ∧ (∀ path, FilledAt ds' g path
        ↔ FilledAt ds g path ∨ ∃ c ∈ copies, FilledAt c.dataset c.grid path)
      ∧ CountersRight ds' g

/-- The leaf cells of the subgrids that are filled in a copy are filled in the grid. -/
def SubgridsFilled (ds : Dataset V) (g : ℕ) (copies : List (GridCopy V)) : Prop :=
  ∀ c ∈ copies, ∀ i j path, FilledAt c.dataset c.grid (i :: j :: path) →
    FilledAt ds g (i :: j :: path)

/-- The subgrids in a merged grid are those that were there. -/
theorem Merging.nested {Q Q' : Grid → Prop} (h : Merging ds g grid x cs')
    (hg : ds.gridHeap[g]? = some grid) (hcs : grid.cells = some cs)
    (hmap : cs'.map GridEntry.subgrid = cs.map GridEntry.subgrid)
    (hQ : ∀ (k : ℕ) (sub sub' : Grid), ds.gridHeap[k]? = some sub → x.gridHeap[k]? = some sub' →
      sub'.subgrids = sub.subgrids → Q sub → Q' sub')
    (hn : Grid.Nested Q ds.gridHeap g) : Grid.Nested Q' x.gridHeap g := by
  have hnode : ∀ {k : ℕ} {sub' : Grid}, x.gridHeap[k]? = some sub' →
      ∃ sub, ds.gridHeap[k]? = some sub ∧ sub'.subgrids = sub.subgrids := by
    intro k sub' hk
    by_cases hkg : k = g
    · subst hkg
      obtain ⟨n, hn⟩ := h.node hg
      obtain rfl := Option.some.inj (hk.symm.trans hn)
      refine ⟨grid, hg, ?_⟩
      have hid : ∀ l : List GridEntry, l.filterMap GridEntry.subgrid
          = (l.map GridEntry.subgrid).filterMap fun o => o := fun l => by simp [List.filterMap_map]
      simp only [Grid.subgrids, hcs, Option.getD_some]
      rw [hid, hmap, ← hid]
    · have hu := h.other hg hkg
      rw [hk, Option.map_some] at hu
      obtain ⟨sub, hsub, he⟩ := Option.map_eq_some_iff.1 hu.symm
      refine ⟨sub, hsub, ?_⟩
      have : sub.uncounted.subgrids = sub'.uncounted.subgrids := by rw [he]
      exact this.symm
  have hreach : ∀ {k : ℕ}, Relation.ReflTransGen (Grid.Subgrid x.gridHeap) g k →
      Relation.ReflTransGen (Grid.Subgrid ds.gridHeap) g k := by
    intro k hk
    refine Relation.ReflTransGen.mono ?_ _ _ hk
    rintro a b ⟨sub', hs', hm⟩
    obtain ⟨sub, hs, he⟩ := hnode hs'
    exact ⟨sub, hs, he ▸ hm⟩
  intro k sub' hk hs'
  obtain ⟨sub, hs, he⟩ := hnode hs'
  exact hQ k sub sub' hs hs' he (hn k sub (hreach hk) hs)

theorem Merging.cells_ne_nil (h : Merging ds g grid x cs') (hg : ds.gridHeap[g]? = some grid)
    (hcs : grid.cells = some cs)
    (hmap : cs'.map GridEntry.subgrid = cs.map GridEntry.subgrid) {k : ℕ} {kid kid' : Grid}
    (hk : ds.gridHeap[k]? = some kid) (hk' : x.gridHeap[k]? = some kid')
    (hne : kid.cells ≠ some []) : kid'.cells ≠ some [] := by
  by_cases hkg : k = g
  · subst hkg
    obtain ⟨n, hn⟩ := h.node hg
    obtain rfl := Option.some.inj (hk'.symm.trans hn)
    obtain rfl := Option.some.inj (hk.symm.trans hg)
    rintro ⟨⟩
    have hnil : cs = [] := List.map_eq_nil_iff.1 hmap.symm
    exact hne (hnil ▸ hcs)
  · have hu := h.other hg hkg
    rw [hk, hk', Option.map_some, Option.map_some] at hu
    have hcells : kid'.uncounted.cells = kid.uncounted.cells := by rw [Option.some.inj hu]
    exact fun hnil => hne (hcells.symm.trans hnil)

theorem Merging.countersRight {dims : ℕ} (h : Merging ds g grid x cs')
    (hF : Grid.Forest dims none ds.gridHeap) (hg : ds.gridHeap[g]? = some grid)
    (hcs : grid.cells = some cs) (hmap : cs'.map GridEntry.subgrid = cs.map GridEntry.subgrid)
    (hr : CountersRight ds g) : CountersRight x g := by
  have hne : Grid.Nested (fun sub => ∀ k ∈ sub.subgrids, ∀ kid, x.gridHeap[k]? = some kid →
      kid.cells ≠ some []) x.gridHeap g := by
    refine h.nested hg hcs hmap ?_ (hr.cells_ne_nil hF)
    intro k sub sub' hsub hsub' he hall j hj kid' hkid'
    rw [he] at hj
    obtain ⟨-, kid, hkid, -⟩ := hF.child hsub hj
    exact h.cells_ne_nil hg hcs hmap hkid hkid' (hall j hj kid hkid)
  intro k sub hk hsub cs₁ hcs₁
  rw [h.grids.forest.count hsub hcs₁, Grid.openCells_eq_emptyCellCount]
  · simp
  · exact fun c hc j kid hj hkid =>
      hne k sub hk hsub j (Grid.mem_subgrids.2 ⟨cs₁, hcs₁, c, hc, hj⟩) kid hkid

/-- What becomes of a grid, whatever the order of the copies. -/
theorem mpiGridCommit_merges (hI : Inv ds) (hr : CountersRight ds g) {copies : List (GridCopy V)}
    (hc : ∀ c ∈ copies, IsCopy env ds g c) {order : List (GridCopy V)}
    (horder : order.Perm copies) :
    ∃ y, mpiGridCommit env g (order.map GridCopy.json) ds = .ok (.success, y) ∧ CountersRight y g
      ∧ (∀ k, FilledAt y g [k] ↔ FilledAt ds g [k] ∨ ∃ c ∈ copies, FilledAt c.dataset c.grid [k])
      ∧ ∀ i j path, FilledAt y g (i :: j :: path) ↔ FilledAt ds g (i :: j :: path) := by
  rcases hne : order with _ | ⟨c₀, rest⟩
  · obtain rfl : copies = [] := (hne ▸ horder).symm.eq_nil
    exact ⟨ds, rfl, hr, by simp, by simp⟩
  rw [← hne]
  have hF := hI.grids.forest
  have hc' : ∀ c ∈ order, IsCopy env ds g c := fun c h => hc c (horder.subset h)
  obtain ⟨grid, cs, hg, hcs⟩ : ∃ (grid : Grid) (cs : List GridEntry),
      ds.gridHeap[g]? = some grid ∧ grid.cells = some cs := by
    obtain ⟨n, hmir⟩ := (hc' c₀ (by simp [hne])).mirrors
    rcases n with _ | n
    · exact hmir.elim
    · obtain ⟨grid, -, cs, -, hg, -, hcs, -⟩ := hmir
      exact ⟨grid, cs, hg, hcs⟩
  obtain ⟨y, cs₂, heq, hm, hmap, hfill⟩ := mpiGridCommit_spec hg hcs hc'
    (.refl hI.table hI.grids hg hcs) rfl
  obtain ⟨n, hn⟩ := hm.node hg
  refine ⟨y, heq, hm.countersRight hF hg hcs hmap hr, fun k => ?_,
    fun i j path => hm.filledAt_cons_iff hg hcs hmap hF⟩
  have hcells : y.cellsAt g = some cs₂ := cellsAt_eq hn
  rw [filledAt_single hcells, hfill, filledAt_single ((cellsAt_eq hg).trans hcs)]
  exact or_congr .rfl (exists_congr fun c => and_congr_left fun _ => horder.mem_iff)

theorem MergesAll.subgridsFilled (hI : Inv ds) (hr : CountersRight ds g)
    {copies : List (GridCopy V)} (hc : ∀ c ∈ copies, IsCopy env ds g c)
    (h : MergesAll env ds g copies) : SubgridsFilled ds g copies := by
  intro c hcm i j path hf
  obtain ⟨y, heq, hfill, -⟩ := h copies (.refl _)
  obtain ⟨y', heq', -, -, hnested⟩ := mpiGridCommit_merges hI hr hc (.refl copies)
  obtain rfl := (Prod.mk.inj (Except.ok.inj (heq.symm.trans heq'))).2
  exact (hnested i j path).1 ((hfill _).2 (.inr ⟨c, hcm, hf⟩))

/-- The copies that are merged into a grid lose nothing exactly if the grid's subgrids have all that
the copies' subgrids have. -/
theorem mpiGridCommit_mergesAll_iff (hI : Inv ds) (hr : CountersRight ds g)
    {copies : List (GridCopy V)} (hc : ∀ c ∈ copies, IsCopy env ds g c) :
    MergesAll env ds g copies ↔ SubgridsFilled ds g copies := by
  refine ⟨MergesAll.subgridsFilled hI hr hc, fun hsub order horder => ?_⟩
  obtain ⟨y, heq, hcount, htop, hnested⟩ := mpiGridCommit_merges hI hr hc horder
  refine ⟨y, heq, fun path => ?_, hcount⟩
  rcases path with _ | ⟨i, _ | ⟨j, path⟩⟩
  · simp [FilledAt]
  · exact htop i
  · rw [hnested]
    refine ⟨.inl, fun h => h.elim (fun h => h) ?_⟩
    rintro ⟨c, hcm, hf⟩
    exact hsub c hcm i j path hf

end Commit

section Sample

/-- A grid of two cells with a subgrid in the first. -/
def namedTop (n : ℤ) (r : Option ℕ) : Grid :=
  ⟨none, some "g", n, some [⟨some 1, none⟩, ⟨none, r⟩], [⟨2, 0, 2, [0, 1, 2]⟩]⟩

/-- The subgrid, of one cell. -/
def namedSub (n : ℤ) (r : Option ℕ) : Grid :=
  ⟨some 0, some "g", n, some [⟨none, r⟩], [⟨1, 0, 1, [0, 1]⟩]⟩

def namedGrids (top sub : ℤ) (r r' : Option ℕ) : List Grid := [namedTop top r, namedSub sub r']

/-- The grid is made and sent to the other ranks. -/
def sendCalls : List (Call ℕ) := pairGridCalls.take 3 ++ [⟨Env.calm 0, .gridSerialize 0⟩]

/-- A rank fills the cell of a grid. -/
def fillCall (g : ℕ) (i : ℤ) : Call ℕ := ⟨Env.calm 0, .writeGrid g (pairElement i) fun _ => 7⟩

theorem run_sendCalls : ∃ ds : Dataset ℕ, (init pairSpace none).run sendCalls = .ok ds
    ∧ ds.gridHeap = namedGrids 2 1 none none ∧ ds.dims = 1 := ⟨_, rfl, rfl, rfl⟩

/-- A rank fills the second cell of the grid. -/
theorem run_fillTop : ∃ (ds ds₁ : Dataset ℕ) (json : Json),
    (init pairSpace none).run (sendCalls ++ [fillCall 0 1]) = .ok ds
      ∧ ds.gridHeap = namedGrids 1 1 (some 0) none
      ∧ (∃ f, ds.fragment 0 = .ok f ∧ Readable (Env.calm 0) 1 f)
      ∧ gridSerialize (Env.calm 0) 2 0 ds = .ok (ds₁, json) := by
  refine ⟨_, _, _, rfl, rfl, ⟨_, rfl, rfl, ?_⟩, rfl⟩
  rintro b ⟨⟩
  decide

/-- A rank fills the cell of the subgrid. -/
theorem run_fillNested : ∃ (ds ds₁ : Dataset ℕ) (json : Json),
    (init pairSpace none).run (sendCalls ++ [fillCall 1 0]) = .ok ds
      ∧ ds.gridHeap = namedGrids 1 0 none (some 0)
      ∧ (∃ f, ds.fragment 0 = .ok f ∧ Readable (Env.calm 0) 1 f)
      ∧ gridSerialize (Env.calm 0) 2 0 ds = .ok (ds₁, json) := by
  refine ⟨_, _, _, rfl, rfl, ⟨_, rfl, rfl, ?_⟩, rfl⟩
  rintro b ⟨⟩
  decide

theorem mirrors_namedGrids {ds ds' : Dataset ℕ} {top sub top' sub' : ℤ} {r r' o o' : Option ℕ}
    (h : ds.gridHeap = namedGrids top sub r r') (h' : ds'.gridHeap = namedGrids top' sub' o o') :
    Mirrors SameStructure (fun _ _ => True) ds ds' 2 0 0 := by
  have hsub : Mirrors SameStructure (fun _ _ => True) ds ds' 1 1 1 :=
    ⟨namedSub sub r', namedSub sub' o', _, _, by rw [h]; rfl, by rw [h']; rfl, rfl, rfl,
      ⟨rfl, by simp [namedSub], rfl⟩, .cons (.inl ⟨rfl, rfl, trivial⟩) .nil⟩
  exact ⟨namedTop top r, namedTop top' o, _, _, by rw [h]; rfl, by rw [h']; rfl, rfl, rfl,
    ⟨rfl, by simp [namedTop], rfl⟩,
    .cons (.inr ⟨1, 1, rfl, rfl, hsub⟩) (.cons (.inl ⟨rfl, rfl, trivial⟩) .nil)⟩

/-- The subgrid's cell is the only one that is nested. -/
theorem filledAt_namedGrids {ds : Dataset ℕ} {top sub : ℤ} {r r' : Option ℕ}
    (h : ds.gridHeap = namedGrids top sub r r') {i j : ℕ} {path : List ℕ} :
    FilledAt ds 0 (i :: j :: path) ↔ i = 0 ∧ j = 0 ∧ path = [] ∧ r' ≠ none := by
  have h0 : ds.cellsAt 0 = some [⟨some 1, none⟩, ⟨none, r⟩] := by rw [cellsAt, h]; rfl
  have h1 : ds.cellsAt 1 = some [⟨none, r'⟩] := by rw [cellsAt, h]; rfl
  constructor
  · rintro ⟨cs, c, k, hcs, hc, hk, hf⟩
    obtain rfl := Option.some.inj (h0.symm.trans hcs)
    obtain ⟨rfl, rfl⟩ : i = 0 ∧ k = 1 := by
      rcases i with _ | _ | i
      · obtain rfl := Option.some.inj hc
        exact ⟨rfl, (Option.some.inj hk).symm⟩
      · obtain rfl := Option.some.inj hc
        cases hk
      · cases hc
    rcases path with _ | ⟨k, path⟩
    · obtain ⟨c, hc, hne⟩ := (filledAt_single h1).1 hf
      rcases j with _ | j
      · obtain rfl := Option.some.inj hc
        exact ⟨rfl, rfl, rfl, hne⟩
      · cases hc
    · obtain ⟨cs, c, k, hcs, hc, hk, -⟩ := hf
      obtain rfl := Option.some.inj (h1.symm.trans hcs)
      obtain rfl := List.mem_singleton.1 (List.mem_of_getElem? hc)
      cases hk
  · rintro ⟨rfl, rfl, rfl, hne⟩
    exact ⟨_, _, 1, h0, rfl, rfl, (filledAt_single h1).2 ⟨_, rfl, hne⟩⟩

/-- What a rank has filled is a copy of the grid that was sent. -/
theorem isCopy_of_run {ds : Dataset ℕ} (hheap : ds.gridHeap = namedGrids 2 1 none none)
    (hdims : ds.dims = 1) {calls : List (Call ℕ)} {x x₁ : Dataset ℕ} {json : Json}
    (hrun : (init pairSpace none).run calls = .ok x) {top sub : ℤ} {r r' : Option ℕ}
    (hx : x.gridHeap = namedGrids top sub r r') (hr : ∀ k, r = some k ∨ r' = some k → k = 0)
    (hf : ∃ f, x.fragment 0 = .ok f ∧ Readable (Env.calm 0) 1 f)
    (hser : gridSerialize (Env.calm 0) 2 0 x = .ok (x₁, json)) :
    IsCopy (Env.calm 0) ds 0 ⟨Env.calm 0, x, 0, json⟩ := by
  have hF := (run_inv (init_inv _ _) hrun).grids.forest
  refine ⟨⟨2, mirrors_namedGrids hheap hx⟩, fun k sub cs hk => (hF.node hk).length cs,
    ⟨x₁, by rw [hx]; exact hser⟩, ?_⟩
  intro k grid _ hgrid cs c j f hcs hc hj hfj
  obtain ⟨f₀, hf₀, hread⟩ := hf
  have hj0 : j = 0 := by
    rw [hx] at hgrid
    rcases List.mem_pair.1 (List.mem_of_getElem? hgrid) with rfl | rfl
    · obtain rfl := Option.some.inj hcs
      rcases List.mem_pair.1 hc with rfl | rfl
      · cases hj
      · exact hr j (.inl hj)
    · obtain rfl := Option.some.inj hcs
      obtain rfl := List.mem_singleton.1 hc
      exact hr j (.inr hj)
  subst hj0
  obtain rfl := Except.ok.inj (hf₀.symm.trans hfj)
  rw [hdims]
  exact hread

theorem countersRight_namedGrids {ds : Dataset ℕ} (h : ds.gridHeap = namedGrids 2 1 none none) :
    CountersRight ds 0 := by
  intro k grid _ hgrid cs hcs
  rw [h] at hgrid ⊢
  rcases List.mem_pair.1 (List.mem_of_getElem? hgrid) with rfl | rfl
  · obtain rfl := Option.some.inj hcs
    decide
  · obtain rfl := Option.some.inj hcs
    decide

theorem mpiGridCommit_mergesAll_pair : ∃ (ds : Dataset ℕ) (c : GridCopy ℕ),
    (init pairSpace none).run sendCalls = .ok ds ∧ FilledAt c.dataset c.grid [1]
      ∧ MergesAll (Env.calm 0) ds 0 [c] := by
  obtain ⟨ds, hrun, hheap, hdims⟩ := run_sendCalls
  obtain ⟨x, x₁, json, hrunx, hx, hf, hser⟩ := run_fillTop
  have hcopy := isCopy_of_run hheap hdims hrunx hx (by simp) hf hser
  have hcells : x.cellsAt 0 = some [⟨some 1, none⟩, ⟨none, some 0⟩] := by rw [cellsAt, hx]; rfl
  refine ⟨ds, ⟨Env.calm 0, x, 0, json⟩, hrun, (filledAt_single hcells).2 ⟨_, rfl, by simp⟩,
    (mpiGridCommit_mergesAll_iff (run_inv (init_inv _ _) hrun) (countersRight_namedGrids hheap)
      (by simpa using hcopy)).2 fun c hc i j path hfill => ?_⟩
  obtain rfl := List.mem_singleton.1 hc
  exact absurd rfl ((filledAt_namedGrids hx).1 hfill).2.2.2

/-- What a rank has put into the subgrid is lost. -/
theorem mpiGridCommit_not_mergesAll : ∃ (ds : Dataset ℕ) (c : GridCopy ℕ),
    (init pairSpace none).run sendCalls = .ok ds ∧ IsCopy (Env.calm 0) ds 0 c
      ∧ ¬ MergesAll (Env.calm 0) ds 0 [c] := by
  obtain ⟨ds, hrun, hheap, hdims⟩ := run_sendCalls
  obtain ⟨x, x₁, json, hrunx, hx, hf, hser⟩ := run_fillNested
  have hcopy := isCopy_of_run hheap hdims hrunx hx (by simp) hf hser
  refine ⟨ds, _, hrun, hcopy, fun h => ?_⟩
  have hsub := h.subgridsFilled (run_inv (init_inv _ _) hrun) (countersRight_namedGrids hheap)
    (by simpa using hcopy)
  have hfill := hsub _ (List.mem_singleton_self _) 0 0 []
    ((filledAt_namedGrids hx).2 ⟨rfl, rfl, rfl, by simp⟩)
  exact ((filledAt_namedGrids hheap).1 hfill).2.2.2 rfl

end Sample

end Dataset

end Esdm
