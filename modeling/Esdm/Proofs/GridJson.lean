import Esdm.Proofs.Metadata
import Esdm.Proofs.Geometry

/-!
# What the text of a grid says

`esdmI_grid_serialize` brings the grid and its subgrids into their fixed structure state (`Fixes`)
and writes them down as they are then (`gridSerialize_describes`).  It returns if the grids can be
allocated and their fragments have been stored (`gridSerialize_eq_ok`).
-/

namespace Esdm

variable {V : Type}

namespace Grid

/-- What `esdmI_grid_serialize` does to a grid: it gets its cells and an id, if it has none. -/
structure FixesTo (grid grid' : Grid) : Prop where
  parent : grid'.parent = grid.parent
  axes : grid'.axes = grid.axes
  id : grid.id ≠ none → grid'.id = grid.id
  cells : (grid'.cells = grid.cells ∧ grid'.emptyCells = grid.emptyCells)
    ∨ (grid.cells = none ∧ grid'.cells = some (List.replicate grid.cellCount.toNat ⟨none, none⟩)
      ∧ grid'.emptyCells = grid.cellCount ∧ 0 ≤ grid.cellCount)

variable {grid grid' : Grid}

theorem FixesTo.refl (grid : Grid) : FixesTo grid grid := ⟨rfl, rfl, fun _ => rfl, .inl ⟨rfl, rfl⟩⟩

theorem FixesTo.cellCount (h : FixesTo grid grid') : grid'.cellCount = grid.cellCount := by
  rw [Grid.cellCount, h.axes, Grid.cellCount]

theorem FixesTo.trans {grid₁ grid₂ grid₃ : Grid} (h : FixesTo grid₁ grid₂)
    (h' : FixesTo grid₂ grid₃) : FixesTo grid₁ grid₃ := by
  refine ⟨h'.parent.trans h.parent, h'.axes.trans h.axes, fun hid => ?_, ?_⟩
  · have := h.id hid
    rw [← this] at hid ⊢
    exact h'.id hid
  · rcases h.cells with ⟨hc, he⟩ | ⟨hn, hc, he, hpos⟩
    · rcases h'.cells with ⟨hc', he'⟩ | ⟨hn', hc', he', hpos'⟩
      · exact .inl ⟨hc'.trans hc, he'.trans he⟩
      · exact .inr ⟨hc ▸ hn', h.cellCount ▸ hc', h.cellCount ▸ he', h.cellCount ▸ hpos'⟩
    · rcases h'.cells with ⟨hc', he'⟩ | ⟨hn', -⟩
      · exact .inr ⟨hn, hc'.trans hc, he'.trans he, hpos⟩
      · simp [hc] at hn'

/-- A grid in the fixed structure state stays as it is. -/
theorem FixesTo.eq (h : FixesTo grid grid') (hc : grid.cells ≠ none) (hid : grid.id ≠ none) :
    grid' = grid := by
  obtain ⟨hp, ha, hi, hcells⟩ := h
  obtain ⟨hc', he⟩ := hcells.resolve_right fun h => hc h.1
  cases grid
  cases grid'
  simp_all

theorem FixesTo.subgrids (h : FixesTo grid grid') : grid'.subgrids = grid.subgrids := by
  rcases h.cells with ⟨hc, -⟩ | ⟨hn, hc, -⟩
  · rw [Grid.subgrids, hc, Grid.subgrids]
  · simp [Grid.subgrids, hn, hc]

end Grid

namespace Dataset

variable {ds ds' : Dataset V} {env : Env V} {g : ℕ} {grid : Grid}

theorem fixStructure_eq_ok {grid' : Grid} (h : fixStructure env g grid = .ok grid') :
    grid.FixesTo grid' ∧ grid'.cells ≠ none ∧ grid'.id ≠ none := by
  unfold fixStructure at h
  obtain ⟨grid₁, he, h⟩ := Outcome.bind_eq_ok.1 h
  obtain rfl := Except.ok.inj h
  obtain ⟨hc, rfl⟩ | ⟨hn, hpos, rfl⟩ := Grid.ensureGrid_eq_ok he
  · refine ⟨⟨rfl, rfl, fun hid => ?_, .inl ⟨rfl, rfl⟩⟩, hc, by simp⟩
    obtain ⟨id, hid⟩ := Option.ne_none_iff_exists'.1 hid
    simp [hid]
  · refine ⟨⟨rfl, rfl, fun hid => ?_, .inr ⟨hn, rfl, rfl, hpos⟩⟩, by simp, by simp⟩
    obtain ⟨id, hid⟩ := Option.ne_none_iff_exists'.1 hid
    simp [hid]

/-- The grids of a dataset are fixed, and nothing else happens to it. -/
structure Fixes (ds ds' : Dataset V) : Prop where
  length : ds'.gridHeap.length = ds.gridHeap.length
  node : ∀ {k : ℕ} {sub : Grid}, ds.gridHeap[k]? = some sub →
    ∃ sub', ds'.gridHeap[k]? = some sub' ∧ sub.FixesTo sub'
  eq : ds' = { ds with gridHeap := ds'.gridHeap }

namespace Fixes

theorem refl (ds : Dataset V) : Fixes ds ds := ⟨rfl, fun h => ⟨_, h, .refl _⟩, rfl⟩

theorem trans {ds₁ ds₂ ds₃ : Dataset V} (h : Fixes ds₁ ds₂) (h' : Fixes ds₂ ds₃) :
    Fixes ds₁ ds₃ := by
  refine ⟨h'.length.trans h.length, fun hk => ?_, ?_⟩
  · obtain ⟨sub₂, hk₂, h₂⟩ := h.node hk
    obtain ⟨sub₃, hk₃, h₃⟩ := h'.node hk₂
    exact ⟨sub₃, hk₃, h₂.trans h₃⟩
  · rw [h'.eq, h.eq]

theorem setGrid (hg : ds.gridHeap[g]? = some grid) {grid' : Grid} (h : grid.FixesTo grid') :
    Fixes ds (ds.setGrid g grid') := by
  refine ⟨by simp [Dataset.setGrid], fun {k sub} hk => ?_, rfl⟩
  rw [Dataset.setGrid, Grid.getElem?_set_of_some hg]
  split_ifs with he
  · obtain rfl : grid = sub := Option.some.inj (hg.symm.trans (he ▸ hk))
    exact ⟨grid', rfl, h⟩
  · exact ⟨sub, hk, .refl _⟩

theorem node' (h : Fixes ds ds') {k : ℕ} {sub' : Grid} (hk : ds'.gridHeap[k]? = some sub') :
    ∃ sub, ds.gridHeap[k]? = some sub ∧ sub.FixesTo sub' := by
  have hlt : k < ds.gridHeap.length := h.length ▸ (List.getElem?_eq_some_iff.1 hk).1
  obtain ⟨sub₁, hk₁, hf⟩ := h.node (List.getElem?_eq_getElem hlt)
  obtain rfl := Option.some.inj (hk.symm.trans hk₁)
  exact ⟨_, List.getElem?_eq_getElem hlt, hf⟩

/-- What has been fixed stays as it is. -/
theorem getElem? (h : Fixes ds ds') {k : ℕ} {sub : Grid} (hk : ds.gridHeap[k]? = some sub)
    (hc : sub.cells ≠ none) (hid : sub.id ≠ none) : ds'.gridHeap[k]? = some sub := by
  obtain ⟨sub', hk', hf⟩ := h.node hk
  rw [hk', hf.eq hc hid]

theorem fragment (h : Fixes ds ds') (r : ℕ) : ds'.fragment r = ds.fragment r := by
  rw [h.eq]
  rfl

theorem subgrid_iff (h : Fixes ds ds') {k k' : ℕ} :
    Grid.Subgrid ds'.gridHeap k k' ↔ Grid.Subgrid ds.gridHeap k k' := by
  constructor
  · rintro ⟨sub', hk, hm⟩
    obtain ⟨sub, hk, hf⟩ := h.node' hk
    exact ⟨sub, hk, hf.subgrids ▸ hm⟩
  · rintro ⟨sub, hk, hm⟩
    obtain ⟨sub', hk, hf⟩ := h.node hk
    exact ⟨sub', hk, hf.subgrids ▸ hm⟩

end Fixes

/-- The grids that are allocated have all of their cells. -/
def CellsFull (ds : Dataset V) : Prop :=
  ∀ (k : ℕ) (sub : Grid) (cs : List GridEntry), ds.gridHeap[k]? = some sub → sub.cells = some cs →
    (cs.length : ℤ) = sub.cellCount

theorem CellsFull.fixes (h : CellsFull ds) (hf : Fixes ds ds') : CellsFull ds' := by
  intro k sub' cs hk hcs
  obtain ⟨sub, hk, hfix⟩ := hf.node' hk
  rw [hfix.cellCount]
  rcases hfix.cells with ⟨hc, -⟩ | ⟨-, hc, -, hpos⟩
  · exact h k sub cs hk (hc ▸ hcs)
  · obtain rfl := Option.some.inj (hcs.symm.trans hc)
    rw [List.length_replicate, Int.toNat_of_nonneg hpos]

section Serialize

/-- What the text of a cell says, given what those of grids say. -/
def DescribesCell (ds : Dataset V) (nested : ℕ → Json → Prop) (c : GridEntry) (json : Json) :
    Prop :=
  (∃ h j, c = ⟨some h, none⟩ ∧ nested h j ∧ json = .obj [("grid", j)])
    ∨ (∃ r f j, c = ⟨none, some r⟩ ∧ ds.fragment r = .ok f ∧ f.metadataCreate = .ok j
      ∧ json = .obj [("fragment", j)])
    ∨ (c = ⟨none, none⟩ ∧ json = .obj [])

/-- The text is that of a grid in its fixed structure state.  The first number bounds the nesting.
-/
def Describes (ds : Dataset V) : ℕ → ℕ → Json → Prop
  | 0, _, _ => False
  | n + 1, g, json => ∃ (grid : Grid) (id : String) (cs : List GridEntry) (cells : List Json),
    ds.gridHeap[g]? = some grid ∧ grid.id = some id ∧ grid.cells = some cs
      ∧ json = .obj [("axes", .arr (grid.axes.map Axis.serialize)), ("id", .str id),
        ("grid", .arr cells)]
      ∧ List.Forall₂ (DescribesCell ds (Describes ds n)) cs cells

theorem DescribesCell.imp {nested nested' : ℕ → Json → Prop} (hf : Fixes ds ds')
    (hn : ∀ h j, nested h j → nested' h j) {c : GridEntry} {json : Json}
    (h : DescribesCell ds nested c json) : DescribesCell ds' nested' c json := by
  rcases h with ⟨k, j, hc, hj, h⟩ | ⟨r, f, j, hc, hfr, h⟩ | h
  · exact .inl ⟨k, j, hc, hn k j hj, h⟩
  · exact .inr (.inl ⟨r, f, j, hc, (hf.fragment r).trans hfr, h⟩)
  · exact .inr (.inr h)

theorem Describes.fixes (hf : Fixes ds ds') : ∀ {n g : ℕ} {json : Json},
    Describes ds n g json → Describes ds' n g json
  | n + 1, g, json, ⟨grid, id, cs, cells, hg, hid, hcs, hj, hcells⟩ =>
    ⟨grid, id, cs, cells, hf.getElem? hg (by simp [hcs]) (by simp [hid]), hid, hcs, hj,
      hcells.imp fun _ _ h => h.imp hf fun _ _ => Describes.fixes hf⟩

theorem serializeCells_describes {nested : ℕ → Dataset V → Outcome (Dataset V × Json)} {n : ℕ}
    (hn : ∀ {h : ℕ} {ds ds' : Dataset V} {json : Json}, CellsFull ds →
      nested h ds = .ok (ds', json) → Fixes ds ds' ∧ Describes ds' n h json) :
    ∀ {cs : List GridEntry} {cells : List Json} {ds ds' : Dataset V}, CellsFull ds →
      serializeCells nested cs ds = .ok (ds', cells) →
      Fixes ds ds' ∧ List.Forall₂ (DescribesCell ds' (Describes ds' n)) cs cells
  | [], cells, ds, ds', _, h => by
    obtain ⟨rfl, rfl⟩ := Prod.mk.inj (Except.ok.inj h)
    exact ⟨.refl ds, .nil⟩
  | c :: cs, cells, ds, ds', hfull, h => by
    rw [serializeCells] at h
    obtain ⟨⟨ds₁, j⟩, hc, h⟩ := Outcome.bind_eq_ok.1 h
    obtain ⟨⟨ds₂, js⟩, hrest, h⟩ := Outcome.bind_eq_ok.1 h
    obtain ⟨rfl, rfl⟩ := Prod.mk.inj (Except.ok.inj h)
    suffices hcell : Fixes ds ds₁ ∧ DescribesCell ds₁ (Describes ds₁ n) c j by
      obtain ⟨hf, hcells⟩ := serializeCells_describes hn (hfull.fixes hcell.1) hrest
      exact ⟨hcell.1.trans hf, .cons (hcell.2.imp hf fun _ _ => Describes.fixes hf) hcells⟩
    unfold serializeCell at hc
    obtain ⟨_, hex, hc⟩ := Outcome.bind_eq_ok.1 hc
    have hex := eassert_eq_ok.1 hex
    obtain ⟨sub, frag⟩ := c
    rcases sub with _ | k
    · rcases frag with _ | r
      · obtain ⟨rfl, rfl⟩ := Prod.mk.inj (Except.ok.inj hc)
        exact ⟨.refl _, .inr (.inr ⟨rfl, rfl⟩)⟩
      · obtain ⟨f, hfr, hc⟩ := Outcome.bind_eq_ok.1 hc
        obtain ⟨_, -, hc⟩ := Outcome.bind_eq_ok.1 hc
        obtain ⟨j', hj', hc⟩ := Outcome.bind_eq_ok.1 hc
        obtain ⟨rfl, rfl⟩ := Prod.mk.inj (Except.ok.inj hc)
        exact ⟨.refl _, .inr (.inl ⟨r, f, j', rfl, hfr, hj', rfl⟩)⟩
    · obtain ⟨⟨ds₃, j'⟩, hnest, hc⟩ := Outcome.bind_eq_ok.1 hc
      obtain ⟨rfl, rfl⟩ := Prod.mk.inj (Except.ok.inj hc)
      obtain ⟨hf', hd⟩ := hn hfull hnest
      obtain rfl : frag = none := hex.resolve_left (by simp)
      exact ⟨hf', .inl ⟨k, j', rfl, hd, rfl⟩⟩

/-- The text says what the grid is when it has been written. -/
theorem gridSerialize_describes : ∀ {depth g : ℕ} {ds ds' : Dataset V} {json : Json},
    CellsFull ds → gridSerialize env depth g ds = .ok (ds', json) →
    Fixes ds ds' ∧ Describes ds' depth g json
  | 0, _, _, _, _, _, h => by cases h
  | depth + 1, g, ds, ds', json, hfull, h => by
    rw [gridSerialize] at h
    obtain ⟨grid, hg, h⟩ := Outcome.bind_eq_ok.1 h
    obtain ⟨grid₁, hfix, h⟩ := Outcome.bind_eq_ok.1 h
    obtain ⟨id, hid, h⟩ := Outcome.bind_eq_ok.1 h
    obtain ⟨cs, hcs, h⟩ := Outcome.bind_eq_ok.1 h
    obtain ⟨⟨ds₁, cells⟩, hcells, h⟩ := Outcome.bind_eq_ok.1 h
    obtain ⟨rfl, rfl⟩ := Prod.mk.inj (Except.ok.inj h)
    have hg := grid_eq_ok.1 hg
    have hid := access_eq_ok.1 hid
    have hcs := access_eq_ok.1 hcs
    have hf := Fixes.setGrid hg (fixStructure_eq_ok hfix).1
    have hg₁ := setGrid_getElem?_self hg grid₁
    have hfull₁ := hfull.fixes hf
    rw [← hfull₁ g grid₁ cs hg₁ hcs, Int.toNat_natCast, List.take_length] at hcells
    obtain ⟨hf', hdesc⟩ := serializeCells_describes
      (fun hfull h => gridSerialize_describes hfull h) hfull₁ hcells
    exact ⟨hf.trans hf', grid₁, id, cs, cells,
      hf'.getElem? hg₁ (by simp [hcs]) (by simp [hid]), hid, hcs, rfl, hdesc⟩

/-- What it takes for a grid to be written down: it can be allocated, and its fragments have been
stored. -/
structure Serializable (ds : Dataset V) (grid : Grid) : Prop where
  allocatable : 0 ≤ grid.cellCount
  stored : ∀ cs c r, grid.cells = some cs → c ∈ cs → c.fragment = some r →
    ∃ f id b, ds.fragment r = .ok f ∧ f.id = some id ∧ f.backend = some b

theorem serializeCells_eq_ok {nested : ℕ → Dataset V → Outcome (Dataset V × Json)}
    (hn : ∀ {h : ℕ} {ds₁ ds₂ : Dataset V} {json : Json}, Fixes ds ds₁ →
      nested h ds₁ = .ok (ds₂, json) → Fixes ds₁ ds₂) :
    ∀ {cs : List GridEntry} {ds₁ : Dataset V}, Fixes ds ds₁ →
      (∀ c ∈ cs, c.subgrid = none ∨ c.fragment = none) →
      (∀ c ∈ cs, ∀ k, c.subgrid = some k → ∀ ds₁, Fixes ds ds₁ → ∃ x, nested k ds₁ = .ok x) →
      (∀ c ∈ cs, ∀ r, c.fragment = some r →
        ∃ f id b, ds.fragment r = .ok f ∧ f.id = some id ∧ f.backend = some b) →
      ∃ x, serializeCells nested cs ds₁ = .ok x
  | [], ds₁, _, _, _, _ => ⟨_, rfl⟩
  | c :: cs, ds₁, hf, hex, hsub, hfrag => by
    obtain ⟨⟨ds₂, j⟩, hcell, hf₂⟩ :
        ∃ x, serializeCell nested c ds₁ = .ok x ∧ Fixes ds₁ x.1 := by
      have hexc := hex c (by simp)
      have hsubc := hsub c (by simp)
      have hfragc := hfrag c (by simp)
      obtain ⟨sub, frag⟩ := c
      unfold serializeCell
      rw [eassert_of hexc, Outcome.ok_bind]
      rcases sub with _ | k
      · rcases frag with _ | r
        · exact ⟨(ds₁, .obj []), rfl, .refl _⟩
        · obtain ⟨f, id, b, hfr, hid, hb⟩ := hfragc r rfl
          have hfr₁ : ds₁.fragment r = .ok f := (hf.fragment r).trans hfr
          obtain ⟨j, hj⟩ := Fragment.exists_metadataCreate hid hb
          refine ⟨(ds₁, .obj [("fragment", j)]), ?_, .refl _⟩
          simp [hfr₁, hj, hid, eassert_of]
      · obtain ⟨⟨ds₂, j⟩, hx⟩ := hsubc k rfl ds₁ hf
        exact ⟨(ds₂, .obj [("grid", j)]), by simp [hx], hn hf hx⟩
    obtain ⟨⟨ds₃, js⟩, hrest⟩ := serializeCells_eq_ok hn (hf.trans hf₂)
      (fun c hc => hex c (List.mem_cons_of_mem _ hc))
      (fun c hc => hsub c (List.mem_cons_of_mem _ hc))
      (fun c hc => hfrag c (List.mem_cons_of_mem _ hc))
    refine ⟨(ds₃, j :: js), ?_⟩
    rw [serializeCells, hcell, Outcome.ok_bind]
    dsimp only at hrest ⊢
    rw [hrest]
    rfl

theorem gridSerialize_eq_ok {dims : ℕ} (hF : Grid.Forest dims none ds.gridHeap) :
    ∀ {depth g : ℕ} {grid : Grid} {ds₁ : Dataset V}, ds.gridHeap.length - g ≤ depth →
      ds.gridHeap[g]? = some grid → Grid.Nested (Serializable ds) ds.gridHeap g → Fixes ds ds₁ →
      ∃ x, gridSerialize env depth g ds₁ = .ok x
  | 0, g, grid, _, hn, hg, _, _ => by
    have := (List.getElem?_eq_some_iff.1 hg).1
    omega
  | depth + 1, g, grid, ds₁, hn, hg, hs, hf => by
    obtain ⟨hself, hsubs⟩ := (Grid.nested_iff hg).1 hs
    obtain ⟨grid₁, hg₁, hfix₁⟩ := hf.node hg
    obtain ⟨grid₂, hfix⟩ : ∃ grid₂, fixStructure env g grid₁ = .ok grid₂ := by
      have hpos : ¬ grid₁.cellCount < 0 := by
        rw [hfix₁.cellCount]
        exact not_lt.2 hself.allocatable
      unfold fixStructure Grid.ensureGrid
      rcases grid₁.cells with _ | cs
      · simp [hpos]
      · exact ⟨_, rfl⟩
    obtain ⟨hfix₂, hc, hid⟩ := fixStructure_eq_ok hfix
    obtain ⟨cs, hcs⟩ := Option.ne_none_iff_exists'.1 hc
    obtain ⟨id, hid⟩ := Option.ne_none_iff_exists'.1 hid
    have hf₂ := hf.trans (Fixes.setGrid hg₁ hfix₂)
    have hfull : CellsFull ds := fun k sub cs hk => (hF.node hk).length cs
    have hlen := hfull.fixes hf₂ g grid₂ cs (setGrid_getElem?_self hg₁ grid₂) hcs
    -- the cells that were there before, or empty ones
    have hold : grid.cells = some cs ∨ ∀ c ∈ cs, c = ⟨none, none⟩ := by
      rcases (hfix₁.trans hfix₂).cells with ⟨h, -⟩ | ⟨-, h, -⟩
      · exact .inl (h ▸ hcs)
      · obtain rfl := Option.some.inj (hcs.symm.trans h)
        exact .inr fun c => List.eq_of_mem_replicate
    suffices hex : ∃ x, serializeCells (gridSerialize env depth) cs (ds₁.setGrid g grid₂) = .ok x by
      obtain ⟨x, hcells⟩ := hex
      rw [gridSerialize, grid_eq_ok.2 hg₁, Outcome.ok_bind, hfix, Outcome.ok_bind]
      simp only [hid, hcs, access_some, Outcome.ok_bind]
      rw [← hlen, Int.toNat_natCast, List.take_length, hcells]
      exact ⟨_, rfl⟩
    refine serializeCells_eq_ok (fun hf h => (gridSerialize_describes (hfull.fixes hf) h).1) hf₂
      ?_ ?_ ?_
    · intro c hc
      rcases hold with hold | hold
      · exact (hF.node hg).exclusive cs hold c hc
      · simp [hold c hc]
    · intro c hc k hk ds₃ hf₃
      rcases hold with hold | hold
      · have hm : k ∈ grid.subgrids := Grid.mem_subgrids.2 ⟨cs, hold, c, hc, hk⟩
        obtain ⟨hlt, sub, hsub, -⟩ := hF.child hg hm
        exact gridSerialize_eq_ok hF (by omega) hsub (hsubs k hm) hf₃
      · simp [hold c hc] at hk
    · intro c hc r hr
      rcases hold with hold | hold
      · exact hself.stored cs c r hold hc hr
      · simp [hold c hc] at hr

end Serialize

end Dataset

end Esdm
