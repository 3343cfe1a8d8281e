import Esdm.Proofs.Decode

/-!
# Grids that are read back

`esdmI_grid_createFromJson` re-creates the structure of a grid, with its fragments, from the grid's
text.  But it counts a cell with a subgrid as filled, whether or not the subgrid is complete.  So a
grid survives in its text exactly if its subgrids are complete (`run_roundTrip_iff`).
-/

namespace Esdm

variable {V : Type}

namespace Axis

theorem createFromJson_serialize {axis : Axis} :
    createFromJson axis.serialize = some axis ↔ axis.Faithful := by
  rw [createFromJson_eq_some, serialize, Json.ints?_ints]
  refine ⟨And.right, fun h => ⟨?_, h⟩⟩
  have := h.length
  rw [List.take_of_length_le (by omega)]

/-- The axes that are read back from the text of a grid. -/
def readBack (axes : List Axis) : Option (List Axis) := (axes.map serialize).mapM createFromJson

theorem readBack_eq_some_iff {axes : List Axis} :
    readBack axes = some axes ↔ ∀ axis ∈ axes, axis.Faithful := by
  rw [readBack, Json.mapM_eq_some_iff, List.forall₂_map_left_iff, List.forall₂_same]
  exact forall₂_congr fun _ _ => createFromJson_serialize

end Axis

/-- The axes of the grid are given back. -/
def Grid.AxesFaithful (grid : Grid) : Prop := ∀ axis ∈ grid.axes, axis.Faithful

namespace Dataset

variable {ds ds' ds₁ : Dataset V} {env : Env V} {g rank n : ℕ} {R R' : Grid → Grid → Prop}
  {L : Option ℕ → Option ℕ → Prop}

section Mirrors

/-- Corresponding cells: leaf cells whose fragments correspond, or cells with subgrids that do. -/
def MirrorsCell (L : Option ℕ → Option ℕ → Prop) (nested : ℕ → ℕ → Prop) (c c' : GridEntry) :
    Prop :=
  (c.subgrid = none ∧ c'.subgrid = none ∧ L c.fragment c'.fragment)
    ∨ ∃ h h', c = ⟨some h, none⟩ ∧ c' = ⟨some h', none⟩ ∧ nested h h'

/-- Two grids have the same structure of cells and subgrids, with corresponding grids related by
`R` and corresponding leaf cells by `L`.  The first number bounds the nesting. -/
def Mirrors (R : Grid → Grid → Prop) (L : Option ℕ → Option ℕ → Prop) (ds ds' : Dataset V) :
    ℕ → ℕ → ℕ → Prop
  | 0, _, _ => False
  | n + 1, g, g' => ∃ (grid grid' : Grid) (cs cs' : List GridEntry),
    ds.gridHeap[g]? = some grid ∧ ds'.gridHeap[g']? = some grid' ∧ grid.cells = some cs
      ∧ grid'.cells = some cs' ∧ R grid grid'
      ∧ List.Forall₂ (MirrorsCell L (Mirrors R L ds ds' n)) cs cs'

/-- Fragments of the same shape, or none. -/
def SameShape (ds ds' : Dataset V) : Option ℕ → Option ℕ → Prop
  | none, none => True
  | some r, some r' => ∃ f f', ds.fragment r = .ok f ∧ ds'.fragment r' = .ok f' ∧ f'.shape = f.shape
  | _, _ => False

/-- If the grids mirror each other by `R`, then they do so by `R'` exactly if the first one and
those nested in it have what it takes. -/
theorem Mirrors.iff {Q : Grid → Prop} (hR : ∀ grid grid', R grid grid' → (R' grid grid' ↔ Q grid)) :
    ∀ {n g g' : ℕ}, Mirrors R L ds ds' n g g' →
      (Mirrors R' L ds ds' n g g' ↔ Grid.Nested Q ds.gridHeap g)
  | n + 1, g, g', ⟨grid, grid', cs, cs', hg, hg', hcs, hcs', hr, hcells⟩ => by
    have hcell : ∀ {c c' : GridEntry}, MirrorsCell L (Mirrors R L ds ds' n) c c' →
        (MirrorsCell L (Mirrors R' L ds ds' n) c c'
          ↔ ∀ k, c.subgrid = some k → Grid.Nested Q ds.gridHeap k) := by
      rintro c c' (⟨hs, hs', hl⟩ | ⟨k, k', rfl, rfl, hk⟩)
      · exact iff_of_true (.inl ⟨hs, hs', hl⟩) (by simp [hs])
      · simp only [Option.some.injEq, forall_eq', ← Mirrors.iff hR hk]
        constructor
        · rintro (⟨h, -⟩ | ⟨_, _, ⟨⟩, ⟨⟩, h⟩)
          · cases h
          · exact h
        · exact fun h => .inr ⟨k, k', rfl, rfl, h⟩
    have hsubs : List.Forall₂ (MirrorsCell L (Mirrors R' L ds ds' n)) cs cs'
        ↔ ∀ c ∈ cs, ∀ k, c.subgrid = some k → Grid.Nested Q ds.gridHeap k := by
      clear hcs hcs'
      induction hcells with
      | nil => simp
      | cons hc _ ih => rw [List.forall₂_cons, ih, hcell hc, List.forall_mem_cons]
    have hmem : (∀ k ∈ grid.subgrids, Grid.Nested Q ds.gridHeap k)
        ↔ ∀ c ∈ cs, ∀ k, c.subgrid = some k → Grid.Nested Q ds.gridHeap k :=
      ⟨fun h c hc k hk => h k (Grid.mem_subgrids.2 ⟨cs, hcs, c, hc, hk⟩), fun h k hk => by
        obtain ⟨cs₁, hcs₁, c, hc, hk⟩ := Grid.mem_subgrids.1 hk
        exact h c (Option.some.inj (hcs₁.symm.trans hcs) ▸ hc) k hk⟩
    rw [Grid.nested_iff hg, hmem, ← hsubs, ← hR grid grid' hr]
    constructor
    · rintro ⟨grid₁, grid₁', cs₁, cs₁', h₁, h₁', h₂, h₂', h₃, h₄⟩
      obtain rfl := Option.some.inj (hg.symm.trans h₁)
      obtain rfl := Option.some.inj (hg'.symm.trans h₁')
      obtain rfl := Option.some.inj (hcs.symm.trans h₂)
      obtain rfl := Option.some.inj (hcs'.symm.trans h₂')
      exact ⟨h₃, h₄⟩
    · rintro ⟨h₃, h₄⟩
      exact ⟨grid, grid', cs, cs', hg, hg', hcs, hcs', h₃, h₄⟩

theorem Mirrors.root : ∀ {n g g' : ℕ}, Mirrors R L ds ds' n g g' →
    ∃ grid grid', ds.gridHeap[g]? = some grid ∧ ds'.gridHeap[g']? = some grid' ∧ R grid grid'
  | _ + 1, _, _, ⟨grid, grid', _, _, hg, hg', _, _, hr, _⟩ => ⟨grid, grid', hg, hg', hr⟩

end Mirrors

section Create

/-- The fragment has the given rank, and its backend is there. -/
def Readable (env : Env V) (rank : ℕ) (f : Fragment V) : Prop :=
  f.dataspace.dims = rank ∧ ∀ b, f.backend = some b → getBackend env b.id ≠ none

/-- The fragments in the cells of the grid are readable. -/
def CellsReadable (env : Env V) (rank : ℕ) (ds : Dataset V) (grid : Grid) : Prop :=
  ∀ cs c r f, grid.cells = some cs → c ∈ cs → c.fragment = some r → ds.fragment r = .ok f →
    Readable env rank f

theorem Readable.acceptable {space : Dataspace} {shapes : List Hypercube} {f : Fragment V}
    {json : Json} (hr : Readable env space.dims f) (h : f.metadataCreate = .ok json) :
    AcceptableFragment env space shapes json := by
  obtain ⟨id, b, -, hb, hparse⟩ := Fragment.parse_metadataCreate hr.1 h
  exact ⟨_, hparse, .inr (hr.2 b hb)⟩

theorem Readable.shape_eq {space : Dataspace} {f : Fragment V} {json : Json}
    {d : FragmentDescription} (hr : Readable env space.dims f) (h : f.metadataCreate = .ok json)
    (hd : FragmentDescription.parse space json = some d) : d.space.getExtends = f.shape := by
  obtain ⟨id, b, -, -, hparse⟩ := Fragment.parse_metadataCreate hr.1 h
  obtain rfl := Option.some.inj (hparse.symm.trans hd)
  rfl

/-- What a grid becomes that is re-created: the counter is that of the cells without an entry. -/
structure Decoded (grid grid' : Grid) : Prop where
  id : grid'.id = grid.id
  axes : Axis.readBack grid.axes = some grid'.axes
  emptyCells : ∃ cs, grid.cells = some cs ∧ grid'.emptyCells = countEmpty cs

/-- The members of a grid's text are the id, the axes that are read back, and the cells. -/
theorem gridMembers_eq (axes : List Axis) (id : String) (cells : List Json) :
    gridMembers (.obj [("axes", .arr (axes.map Axis.serialize)), ("id", .str id),
        ("grid", .arr cells)])
      = (Axis.readBack axes).bind fun axes' =>
        if (cells.length : ℤ) = (axes'.map Axis.intervals).prod then some (id, axes', cells)
        else none := by
  simp [gridMembers, Axis.readBack]

theorem countEmpty_congr {nested : ℕ → ℕ → Prop} (hL : ∀ o o', L o o' → (o = none ↔ o' = none))
    {cs cs' : List GridEntry} (h : List.Forall₂ (MirrorsCell L nested) cs cs') :
    countEmpty cs' = countEmpty cs := by
  unfold countEmpty
  induction h with
  | nil => rfl
  | @cons c c' cs cs' hc _ ih =>
    rw [List.countP_cons, List.countP_cons, ih]
    rcases hc with ⟨hs, hs', hl⟩ | ⟨k, k', rfl, rfl, -⟩
    · simp [hs, hs', hL _ _ hl]
    · simp

theorem SameShape.none_iff : ∀ {o o' : Option ℕ}, SameShape ds ds' o o' → (o = none ↔ o' = none)
  | none, none, _ => .rfl
  | some _, some _, _ => by simp

section Described

variable {space : Dataspace} {shapes : List Hypercube} (hfull : CellsFull ds₁)

include hfull

/-- The text of a grid is accepted if the axes are given back. -/
theorem Describes.acceptable : ∀ {n depth g : ℕ} {json : Json}, Describes ds₁ n g json →
    json.depth < depth → Grid.Nested Grid.AxesFaithful ds₁.gridHeap g →
    Grid.Nested (CellsReadable env space.dims ds₁) ds₁.gridHeap g →
    Acceptable env space shapes depth json
  | n + 1, 0, g, json, _, hdepth, _, _ => absurd hdepth (Nat.not_lt_zero _)
  | n + 1, depth + 1, g, json, ⟨grid, id, cs, cells, hg, _, hcs, hj, hcells⟩, hdepth, hfaith,
    hread => by
    obtain ⟨hself, hsubs⟩ := (Grid.nested_iff hg).1 hread
    obtain ⟨haxes, hfaiths⟩ := (Grid.nested_iff hg).1 hfaith
    have hlen : (cells.length : ℤ) = grid.cellCount := by
      rw [← hcells.length_eq, hfull g grid cs hg hcs]
    have hm : gridMembers json = some (id, grid.axes, cells) := by
      rw [hj, gridMembers_eq, Axis.readBack_eq_some_iff.2 haxes, Option.bind_some]
      exact if_pos hlen
    refine ⟨id, grid.axes, cells, hm, fun j hjm => ?_⟩
    obtain ⟨i, hi⟩ := List.mem_iff_getElem?.1 hjm
    obtain ⟨c, hc, hd⟩ := exists_of_forall₂ hcells.flip hi
    have hc := List.mem_of_getElem? hc
    rcases hd with ⟨k, jk, rfl, hk, rfl⟩ | ⟨r, f, jf, rfl, hf, hjf, rfl⟩ | ⟨rfl, rfl⟩
    · have hk' : k ∈ grid.subgrids := Grid.mem_subgrids.2 ⟨cs, hcs, _, hc, rfl⟩
      have h1 := Json.depth_lt_of_get (gridMembers_eq_some hm).1
      have h2 := Json.depth_lt_arr hjm
      have h3 : jk.depth < (Json.obj [("grid", jk)]).depth :=
        Json.depth_lt_obj (List.mem_singleton_self _)
      exact .grid (by simp) (by simp) (hk.acceptable (by omega) (hfaiths k hk') (hsubs k hk'))
    · exact .fragment (by simp) (by simp) ((hself cs _ r f hcs hc rfl hf).acceptable hjf)
    · exact .empty (by simp) (by simp) (by simp)

omit hfull in
/-- What is made of the text of a grid mirrors it. -/
theorem Describes.mirrors : ∀ {n m g g' : ℕ} {json : Json}, Describes ds₁ n g json →
    Encodes space ds' m json g' →
    Grid.Nested (CellsReadable env space.dims ds₁) ds₁.gridHeap g →
    Mirrors Decoded (SameShape ds₁ ds') ds₁ ds' n g g'
  | n + 1, 0, g, g', json, _, henc, _ => henc.elim
  | n + 1, m + 1, g, g', json, ⟨grid, id, cs, cells, hg, hid, hcs, hj, hcells⟩,
      ⟨id', axes, cells', grid', entries, hm, hg', hid', haxes, hcs', hcount, henc⟩, hread => by
    obtain ⟨hself, hsubs⟩ := (Grid.nested_iff hg).1 hread
    rw [hj, gridMembers_eq] at hm
    obtain ⟨axes', hback, hif⟩ := Option.bind_eq_some_iff.1 hm
    obtain ⟨rfl, rfl, rfl⟩ : id = id' ∧ axes' = axes ∧ cells = cells' := by
      split_ifs at hif
      simpa using hif
    have hmir : List.Forall₂ (MirrorsCell (SameShape ds₁ ds')
        (Mirrors Decoded (SameShape ds₁ ds') ds₁ ds' n)) cs entries := by
      refine List.forall₂_iff_get.2 ⟨hcells.length_eq.trans henc.length_eq, fun i hi hi' => ?_⟩
      have hi₂ : i < cells.length := hcells.length_eq ▸ hi
      have hd := hcells.get hi hi₂
      have he := henc.get hi₂ hi'
      have hc : cs.get ⟨i, hi⟩ ∈ cs := List.get_mem _ _
      generalize cs.get ⟨i, hi⟩ = c at *
      generalize cells.get ⟨i, hi₂⟩ = j at *
      generalize entries.get ⟨i, hi'⟩ = e at *
      rcases hd with ⟨k, jk, rfl, hk, rfl⟩ | ⟨r, f, jf, rfl, hf, hjf, rfl⟩ | ⟨rfl, rfl⟩
      · cases he with
        | grid hget _ hn =>
          obtain rfl : jk = _ := by simpa using hget
          have hk' : k ∈ grid.subgrids := Grid.mem_subgrids.2 ⟨cs, hcs, _, hc, rfl⟩
          exact .inr ⟨k, _, rfl, rfl, hk.mirrors hn.2 (hsubs k hk')⟩
        | fragment hget => simp at hget
        | empty hget => simp at hget
      · cases he with
        | grid hget => simp at hget
        | fragment _ hget hd hf' hs =>
          obtain rfl : jf = _ := by simpa using hget
          have hr := hself cs _ r f hcs hc rfl hf
          exact .inl ⟨rfl, rfl, f, _, hf, hf', hs.trans (hr.shape_eq hjf hd)⟩
        | empty _ hget => simp at hget
      · cases he with
        | grid hget => simp at hget
        | fragment _ hget => simp at hget
        | empty => exact .inl ⟨rfl, rfl, trivial⟩
    refine ⟨grid, grid', cs, entries, hg, hg', hcs, hcs', ⟨hid'.trans hid.symm, ?_, cs, hcs, ?_⟩,
      hmir⟩
    · rw [hback, haxes]
    · rw [hcount, countEmpty_congr (fun _ _ => SameShape.none_iff) hmir]

end Described

end Create

section Settled

/-- The grids that survive in their texts: the axes are given back, and the grids nested in it are
complete. -/
structure Settled (heap : List Grid) (g : ℕ) : Prop where
  axes : Grid.Nested Grid.AxesFaithful heap g
  subgrids : ∀ h sub, Relation.TransGen (Grid.Subgrid heap) g h → heap[h]? = some sub →
    sub.Complete

/-- What a grid and its copy have in common. -/
structure SameGrid (grid grid' : Grid) : Prop where
  id : grid'.id = grid.id
  axes : grid'.axes = grid.axes
  emptyCells : grid'.emptyCells = grid.emptyCells

/-- What it takes for a grid to be given back: the counter is that of the cells without an entry. -/
def Returns (grid : Grid) : Prop :=
  grid.AxesFaithful ∧ ∃ cs, grid.cells = some cs ∧ grid.emptyCells = countEmpty cs

theorem Decoded.same_iff {grid grid' : Grid} (h : Decoded grid grid') :
    SameGrid grid grid' ↔ Returns grid := by
  obtain ⟨hid, haxes, cs, hcs, he⟩ := h
  constructor
  · rintro ⟨-, ha, hc⟩
    exact ⟨Axis.readBack_eq_some_iff.1 (ha ▸ haxes), cs, hcs, hc.symm.trans he⟩
  · rintro ⟨hf, cs', hcs', he'⟩
    obtain rfl := Option.some.inj (hcs.symm.trans hcs')
    refine ⟨hid, ?_, he.trans he'.symm⟩
    exact Option.some.inj (haxes.symm.trans (Axis.readBack_eq_some_iff.2 hf))

/-- The cells that count as empty are those without an entry, and those whose subgrid is not
done. -/
theorem openCells_eq_add {heap : List Grid} : ∀ {cs : List GridEntry},
    (∀ c ∈ cs, c.subgrid = none ∨ c.fragment = none) →
    Grid.openCells heap cs = countEmpty cs
      + cs.countP fun c => c.subgrid.any fun k => !(heap[k]?).any Grid.done
  | [], _ => rfl
  | c :: cs, hx => by
    have ih := @openCells_eq_add heap cs fun c hc => hx c (List.mem_cons_of_mem _ hc)
    unfold Grid.openCells countEmpty at ih ⊢
    rw [List.countP_cons, List.countP_cons, List.countP_cons, ih]
    have hc := hx c List.mem_cons_self
    obtain ⟨sub, frag⟩ := c
    rcases sub with _ | k
    · rcases frag with _ | r
      · simp [Grid.cellDone]
        omega
      · simp [Grid.cellDone]
    · obtain rfl : frag = none := hc.resolve_left (by simp)
      rcases hd : (heap[k]?).any Grid.done with _ | _
      · simp [Grid.cellDone, hd]
        omega
      · simp [Grid.cellDone, hd]

/-- The counter of a grid is that of the cells without an entry if its subgrids are done. -/
theorem emptyCells_eq_countEmpty_iff {heap : List Grid} {dims g : ℕ} {grid : Grid}
    (hF : Grid.Forest dims none heap) (hg : heap[g]? = some grid) {cs : List GridEntry}
    (hcs : grid.cells = some cs) : grid.emptyCells = countEmpty cs
      ↔ ∀ k ∈ grid.subgrids, (heap[k]?).any Grid.done = true := by
  rw [hF.count hg hcs, if_neg (by simp), openCells_eq_add ((hF.node hg).exclusive cs hcs)]
  have hzero : cs.countP (fun c => c.subgrid.any fun k => !(heap[k]?).any Grid.done) = 0
      ↔ ∀ k ∈ grid.subgrids, (heap[k]?).any Grid.done = true := by
    rw [List.countP_eq_zero]
    constructor
    · intro h k hk
      obtain ⟨cs', hcs', c, hc, hck⟩ := Grid.mem_subgrids.1 hk
      obtain rfl := Option.some.inj (hcs.symm.trans hcs')
      simpa [hck] using h c hc
    · intro h c hc
      rcases hck : c.subgrid with _ | k
      · simp
      · simpa using h k (Grid.mem_subgrids.2 ⟨cs, hcs, c, hc, hck⟩)
  rw [← hzero]
  omega

theorem FixesTo.done_eq {grid grid' : Grid} (h : grid.FixesTo grid') : grid'.done = grid.done := by
  rcases h.cells with ⟨hc, he⟩ | ⟨hn, hc, he, -⟩
  · unfold Grid.done
    rw [hc, he]
  · rw [Bool.eq_iff_iff, Grid.done_iff, Grid.done_iff, hn, hc, he]
    constructor
    · rintro ⟨cs, ⟨⟩, hne, h0⟩
      simp [h0] at hne
    · rintro ⟨cs, ⟨⟩, -⟩

theorem Fixes.any_done (h : Fixes ds ds') (k : ℕ) :
    (ds'.gridHeap[k]?).any Grid.done = (ds.gridHeap[k]?).any Grid.done := by
  rcases hk : ds.gridHeap[k]? with _ | sub
  · have : ds'.gridHeap[k]? = none := by
      rw [List.getElem?_eq_none_iff] at hk ⊢
      rwa [h.length]
    rw [this]
  · obtain ⟨sub', hk', hf⟩ := h.node hk
    simp [hk', FixesTo.done_eq hf]

/-- A grid is given back, with the grids nested in it, if it was settled before it was written. -/
theorem Fixes.returns_iff {dims dims' : ℕ} (h : Fixes ds ds')
    (hF : Grid.Forest dims none ds.gridHeap) (hF' : Grid.Forest dims' none ds'.gridHeap)
    (ha : Grid.Nested (fun sub => sub.cells ≠ none) ds'.gridHeap g) :
    Grid.Nested Returns ds'.gridHeap g ↔ Settled ds.gridHeap g := by
  have hreach : ∀ {k : ℕ}, Relation.ReflTransGen (Grid.Subgrid ds'.gridHeap) g k
      ↔ Relation.ReflTransGen (Grid.Subgrid ds.gridHeap) g k := by
    intro k
    rw [show Grid.Subgrid ds'.gridHeap = Grid.Subgrid ds.gridHeap from
      funext fun _ => funext fun _ => propext h.subgrid_iff]
  constructor
  · intro hr
    have hfaith : Grid.Nested Grid.AxesFaithful ds.gridHeap g := by
      intro k sub hk hs
      obtain ⟨sub', hs', hf⟩ := h.node hs
      have := (hr k sub' (hreach.2 hk) hs').1
      unfold Grid.AxesFaithful at this ⊢
      rwa [hf.axes] at this
    refine ⟨hfaith, fun k sub hk hs => ?_⟩
    obtain ⟨p, hp, hpk⟩ := Relation.TransGen.tail'_iff.1 hk
    obtain ⟨par', hpar', hm⟩ := h.subgrid_iff.2 hpk
    obtain ⟨-, cs, hcs, he⟩ := hr p par' (hreach.2 hp) hpar'
    have hd := (emptyCells_eq_countEmpty_iff hF' hpar' hcs).1 he k hm
    rw [h.any_done, hs, Option.any_some] at hd
    exact ((hF.node hs).done_iff_complete fun a ha =>
      (hfaith k sub hk.to_reflTransGen hs a ha).intervals).1 hd
  · rintro ⟨hfaith, hsub⟩ k sub' hk hs'
    obtain ⟨sub, hs, hf⟩ := h.node' hs'
    have hk' := hreach.1 hk
    obtain ⟨cs, hcs⟩ := Option.ne_none_iff_exists'.1 (ha k sub' hk hs')
    refine ⟨?_, cs, hcs, (emptyCells_eq_countEmpty_iff hF' hs' hcs).2 fun j hj => ?_⟩
    · have := hfaith k sub hk' hs
      unfold Grid.AxesFaithful at this ⊢
      rwa [hf.axes]
    · have hkj : Grid.Subgrid ds.gridHeap k j := h.subgrid_iff.1 ⟨sub', hs', hj⟩
      obtain ⟨sub₁, hs₁, hj'⟩ := hkj
      obtain ⟨-, kid, hkid, -⟩ := hF.child hs₁ hj'
      have hreachj : Relation.TransGen (Grid.Subgrid ds.gridHeap) g j :=
        .tail' hk' ⟨sub₁, hs₁, hj'⟩
      rw [h.any_done, hkid, Option.any_some]
      exact ((hF.node hkid).done_iff_complete fun a ha =>
        (hfaith j kid hreachj.to_reflTransGen hkid a ha).intervals).2 (hsub j kid hreachj hkid)

end Settled

section RoundTrip

variable {ds₂ : Dataset V} {env' : Env V} {grid : Grid}

/-- The grid is written down and re-created in another dataset, and the new grid is what the old one
was: ids, axes, counters and subgrids are the same, the leaf cells have fragments of the same
shapes, and it is registered as complete exactly if all leaf cells have one. -/
def RoundTrip (env env' : Env V) (ds : Dataset V) (g : ℕ) (ds₂ : Dataset V) : Prop :=
  ∃ ds₁ json ds₃ g', gridSerialize env ds.gridHeap.length g ds = .ok (ds₁, json)
    ∧ gridCreateFromString env' json ds₂ = .ok (ds₃, some g')
    ∧ Mirrors SameGrid (SameShape ds₁ ds₃) ds₁ ds₃ ds.gridHeap.length g g'
    ∧ (g' ∈ ds₃.grids.take ds₃.gridCount ↔ Grid.LeavesFilled ds₁.gridHeap g)

/-- The fragments in the cells of the grid have been stored, on backends that are there. -/
def CellsKnown (env : Env V) (ds : Dataset V) (grid : Grid) : Prop :=
  ∀ cs c r, grid.cells = some cs → c ∈ cs → c.fragment = some r →
    ∃ f id b, ds.fragment r = .ok f ∧ f.id = some id ∧ f.backend = some b
      ∧ getBackend env b.id ≠ none

theorem Describes.allocated : ∀ {n g : ℕ} {json : Json}, Describes ds n g json →
    Grid.Nested (fun sub => sub.cells ≠ none) ds.gridHeap g
  | n + 1, g, json, ⟨grid, id, cs, cells, hg, hid, hcs, hj, hcells⟩ => by
    refine (Grid.nested_iff hg).2 ⟨by simp [hcs], fun k hk => ?_⟩
    obtain ⟨cs', hcs', c, hc, hck⟩ := Grid.mem_subgrids.1 hk
    obtain rfl := Option.some.inj (hcs.symm.trans hcs')
    obtain ⟨j, -, hd⟩ : ∃ j ∈ cells, DescribesCell ds (Describes ds n) c j := by
      clear hj hcs hcs'
      induction hcells with
      | nil => simp at hc
      | cons h _ ih =>
        rcases List.mem_cons.1 hc with rfl | hc
        · exact ⟨_, List.mem_cons_self, h⟩
        · obtain ⟨j, hj, hd⟩ := ih hc
          exact ⟨j, List.mem_cons_of_mem _ hj, hd⟩
    rcases hd with ⟨h, j, rfl, hd, -⟩ | ⟨r, f, j, rfl, -⟩ | ⟨rfl, -⟩
    · obtain rfl := Option.some.inj hck
      exact hd.allocated
    · cases hck
    · cases hck

/-- What has been stored is readable after the grids have been written down. -/
theorem Fixes.cellsReadable (h : Fixes ds ds') (hI : Inv ds)
    (hG : Grid.Geometry ds.table ds.gridHeap)
    (hk : Grid.Nested (CellsKnown env ds) ds.gridHeap g) :
    Grid.Nested (CellsReadable env ds.dims ds') ds'.gridHeap g := by
  intro k sub' hreach hs' cs c r f hcs hc hr hf
  obtain ⟨sub, hs, hfix⟩ := h.node' hs'
  have hreach' : Relation.ReflTransGen (Grid.Subgrid ds.gridHeap) g k := by
    rwa [show Grid.Subgrid ds.gridHeap = Grid.Subgrid ds'.gridHeap from
      funext fun _ => funext fun _ => propext h.subgrid_iff.symm]
  have hcs' : sub.cells = some cs := by
    rcases hfix.cells with ⟨heq, -⟩ | ⟨-, heq, -⟩
    · rw [← heq, hcs]
    · obtain rfl := Option.some.inj (hcs.symm.trans heq)
      obtain rfl := List.eq_of_mem_replicate hc
      cases hr
  rw [h.fragment] at hf
  obtain ⟨f', id, b, hf', -, hb, hbk⟩ := hk k sub hreach' hs cs c r hcs' hc hr
  obtain rfl := Except.ok.inj (hf.symm.trans hf')
  obtain ⟨i, hi⟩ := List.getElem?_of_mem hc
  obtain ⟨-, index, cube, -, -, hm⟩ := (hG.cells k sub cs i c hs hcs' hi).fragment r hr
  refine ⟨hI.fragment_dims hm hf, fun b' hb' => ?_⟩
  obtain rfl := Option.some.inj (hb.symm.trans hb')
  exact hbk

/-- What comes of the text that has been written. -/
theorem gridCreateFromString_described (hI : Inv ds) (hG : Grid.Geometry ds.table ds.gridHeap)
    (hk : Grid.Nested (CellsKnown env' ds) ds.gridHeap g) (hw : TableWf ds₂) (hl : GridList ds₂)
    (hd : ds₂.dims = ds.dims) {json : Json}
    (hser : gridSerialize env ds.gridHeap.length g ds = .ok (ds₁, json)) :
    ∃ ds₃ o, gridCreateFromString env' json ds₂ = .ok (ds₃, o)
      ∧ (Settled ds.gridHeap g → o ≠ none)
      ∧ ∀ g', o = some g' → (Mirrors SameGrid (SameShape ds₁ ds₃) ds₁ ds₃ ds.gridHeap.length g g'
          ↔ Settled ds.gridHeap g)
        ∧ (Settled ds.gridHeap g →
          (g' ∈ ds₃.grids.take ds₃.gridCount ↔ Grid.LeavesFilled ds₁.gridHeap g)) := by
  have hF := hI.grids.forest
  have hfull : CellsFull ds := fun k sub cs hk => (hF.node hk).length cs
  obtain ⟨hfix, hdesc⟩ := gridSerialize_describes hfull hser
  have hI₁ : Inv ds₁ := ((gridSerialize_steps hser).steps.inv
    (P := fun _ => False) (S := fun _ _ => False) (fun _ h => h.elim) hI).1
  have hF₁ := hI₁.grids.forest
  have hret := hfix.returns_iff hF hF₁ hdesc.allocated
  have hfaith : Settled ds.gridHeap g → Grid.Nested Grid.AxesFaithful ds₁.gridHeap g :=
    fun hs k sub hk hsub => (hret.2 hs k sub hk hsub).1
  have hread : Grid.Nested (CellsReadable env' ds₂.dataspace.dims ds₁) ds₁.gridHeap g :=
    (show ds₂.dataspace.dims = ds.dims from hd) ▸ hfix.cellsReadable hI hG hk
  obtain ⟨y, heq, -, -, hnot⟩ | ⟨ds₃, g', grid', heq, -, -, henc, hg', hreg⟩ :=
    @gridCreateFromString_spec V ds₂ env' json hw hl
  · refine ⟨y, none, heq, fun hs => absurd ?_ hnot, by simp⟩
    exact hdesc.acceptable (hfull.fixes hfix) (Nat.lt_succ_self _) (hfaith hs) hread
  refine ⟨ds₃, some g', heq, by simp, ?_⟩
  rintro g' ⟨⟩
  have hmir := hdesc.mirrors henc hread
  refine ⟨(hmir.iff fun _ _ h => h.same_iff).trans hret, fun hs => ?_⟩
  obtain ⟨grid₁, grid₁', hg₁, hg₁', -, -, cs, hcs, he'⟩ := hmir.root
  obtain rfl := Option.some.inj (hg'.symm.trans hg₁')
  have hpos : Grid.Nested (fun sub => ∀ a ∈ sub.axes, 1 ≤ a.intervals) ds₁.gridHeap g :=
    fun k sub hk hsub a ha => (hfaith hs k sub hk hsub a ha).intervals
  obtain ⟨-, cs', hcs', he⟩ := hret.2 hs g grid₁ .refl hg₁
  obtain rfl := Option.some.inj (hcs.symm.trans hcs')
  rw [hreg, ← hF₁.done_iff_leavesFilled _ g le_rfl hg₁ hpos,
    (hF₁.node hg₁).done_iff_complete (hpos g grid₁ .refl hg₁), Grid.Complete, he, he']
  simp [hcs]

theorem roundTrip_iff (hI : Inv ds) (hG : Grid.Geometry ds.table ds.gridHeap)
    (hg : ds.gridHeap[g]? = some grid) (hk : Grid.Nested (CellsKnown env' ds) ds.gridHeap g)
    (hw : TableWf ds₂) (hl : GridList ds₂) (hd : ds₂.dims = ds.dims) :
    RoundTrip env env' ds g ds₂ ↔ Settled ds.gridHeap g := by
  constructor
  · rintro ⟨ds₁, json, ds₃, g', hser, hcreate, hmir, -⟩
    obtain ⟨ds₃', o, hcreate', -, hiff⟩ := gridCreateFromString_described hI hG hk hw hl hd hser
    obtain ⟨rfl, rfl⟩ := Prod.mk.inj (Except.ok.inj (hcreate'.symm.trans hcreate))
    exact (hiff g' rfl).1.1 hmir
  · intro hs
    have hser : Grid.Nested (Serializable ds) ds.gridHeap g := by
      intro k sub hreach hsub
      refine ⟨(Grid.cellCount_pos fun a ha => (hs.axes k sub hreach hsub a ha).intervals).le, ?_⟩
      intro cs c r hcs hc hr
      obtain ⟨f, id, b, hf, hid, hb, -⟩ := hk k sub hreach hsub cs c r hcs hc hr
      exact ⟨f, id, b, hf, hid, hb⟩
    obtain ⟨⟨ds₁, json⟩, hser⟩ := @gridSerialize_eq_ok V ds env _ hI.grids.forest
      _ g grid ds (Nat.sub_le _ _) hg hser (.refl ds)
    obtain ⟨ds₃, o, hcreate, hsucc, hiff⟩ := gridCreateFromString_described hI hG hk hw hl hd hser
    obtain ⟨g', rfl⟩ := Option.ne_none_iff_exists'.1 (hsucc hs)
    exact ⟨ds₁, json, ds₃, g', hser, hcreate, (hiff g' rfl).1.2 hs, (hiff g' rfl).2 hs⟩

theorem run_pairGridCalls : ∃ ds : Dataset ℕ, (init pairSpace none).run pairGridCalls = .ok ds
    ∧ ds.gridHeap = pairGrids 0 0 (some 1) ∧ ds.dims = 1
    ∧ ∀ r < 2, ∃ f id b, ds.fragment r = .ok f ∧ f.id = some id ∧ f.backend = some b
      ∧ getBackend (Env.calm 0) b.id ≠ none := by
  refine ⟨_, rfl, rfl, rfl, fun r hr => ?_⟩
  match r, hr with
  | 0, _ => exact ⟨_, _, _, rfl, rfl, rfl, by decide⟩
  | 1, _ => exact ⟨_, _, _, rfl, rfl, rfl, by decide⟩

theorem run_pairGridCalls_take : ∃ ds : Dataset ℕ,
    (init pairSpace none).run (pairGridCalls.take 5) = .ok ds
      ∧ ds.gridHeap = pairGrids 1 1 none ∧ ds.dims = 1
      ∧ ∃ f id b, ds.fragment 0 = .ok f ∧ f.id = some id ∧ f.backend = some b
        ∧ getBackend (Env.calm 0) b.id ≠ none :=
  ⟨_, rfl, rfl, rfl, _, _, _, rfl, rfl, rfl, by decide⟩

theorem nested_pairGrids {Q : Grid → Prop} {top sub : ℤ} {r : Option ℕ}
    (h : ∀ grid ∈ pairGrids top sub r, Q grid) : Grid.Nested Q (pairGrids top sub r) 0 :=
  Grid.nested_of_forall h

theorem pairGrids_axesFaithful {top sub : ℤ} {r : Option ℕ} :
    ∀ grid ∈ pairGrids top sub r, grid.AxesFaithful := by
  intro grid hg axis ha
  rcases List.mem_pair.1 hg with rfl | rfl
  · obtain rfl := List.mem_singleton.1 ha
    exact ⟨by decide, rfl, rfl, rfl⟩
  · obtain rfl := List.mem_singleton.1 ha
    exact ⟨by decide, rfl, rfl, rfl⟩

theorem pairGrids_cellsKnown {ds : Dataset ℕ} {env : Env ℕ} {top sub : ℤ} {o : Option ℕ}
    (h : ∀ r, r = 0 ∨ o = some r → ∃ f id b, ds.fragment r = .ok f ∧ f.id = some id
      ∧ f.backend = some b ∧ getBackend env b.id ≠ none) :
    ∀ grid ∈ pairGrids top sub o, CellsKnown env ds grid := by
  intro grid hg cs c r hcs hc hr
  rcases List.mem_pair.1 hg with rfl | rfl
  · obtain rfl := Option.some.inj hcs
    rcases List.mem_pair.1 hc with rfl | rfl
    · cases hr
    · exact h r (.inl (Option.some.inj hr).symm)
  · obtain rfl := Option.some.inj hcs
    obtain rfl := List.mem_singleton.1 hc
    exact h r (.inr hr)

end RoundTrip

end Dataset

end Esdm
