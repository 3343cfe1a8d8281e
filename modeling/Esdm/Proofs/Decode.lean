import Esdm.Proofs.Coverage
import Esdm.Proofs.GridJson

/-!
# Grids that are decoded

What `esdmI_grid_createFromJson` makes of a JSON value: which values it accepts, and how the grid is
laid out that it makes of one (`gridCreateFromJson_spec`).  It checks the form of the value and the
number of cells, but no geometry: the grid is a hierarchy whose fragments lie in their cells exactly
if the value says so (`gridCreateFromString_placed_iff`).
-/

namespace Esdm

variable {V : Type}

theorem exists_of_forall₂ {α β : Type} {R : α → β → Prop} {l : List α} {l' : List β}
    (h : List.Forall₂ R l l') {i : ℕ} {a : α} (ha : l[i]? = some a) : ∃ b, l'[i]? = some b
      ∧ R a b := by
  obtain ⟨hi, rfl⟩ := List.getElem?_eq_some_iff.1 ha
  have hi' : i < l'.length := h.length_eq ▸ hi
  exact ⟨l'[i], List.getElem?_eq_getElem hi', h.get hi hi'⟩

namespace Axis

/-- The axes that are made from a text: the bounds are all there, and the outer ones are the first
and the last. -/
structure Faithful (axis : Axis) : Prop where
  intervals : 1 ≤ axis.intervals
  length : (axis.allBounds.length : ℤ) = axis.intervals + 1
  head : axis.allBounds.head? = some axis.outerStart
  last : axis.allBounds.getLast? = some axis.outerStop

theorem createFromJson_eq_some {json : Json} {axis : Axis} :
    createFromJson json = some axis ↔ json.ints? = some axis.allBounds ∧ axis.Faithful := by
  unfold createFromJson
  constructor
  · intro h
    obtain ⟨bounds, hb, h⟩ := Option.bind_eq_some_iff.1 h
    split_ifs at h with hlen
    obtain ⟨first, hfirst, h⟩ := Option.bind_eq_some_iff.1 h
    obtain ⟨last, hlast, h⟩ := Option.bind_eq_some_iff.1 h
    obtain rfl := Option.some.inj h
    exact ⟨hb, by dsimp only; omega, by dsimp only; omega, hfirst, hlast⟩
  · rintro ⟨hb, hi, hl, hh, ht⟩
    have hint : (axis.allBounds.length : ℤ) - 1 = axis.intervals := by omega
    simp only [hb, Option.bind_eq_bind, Option.bind_some, hh, ht, hint]
    rw [if_neg (by omega)]

theorem Faithful.proper_iff {axis : Axis} (h : axis.Faithful) :
    axis.Proper ↔ axis.allBounds.Pairwise (· < ·) :=
  ⟨Proper.sorted, fun hs => ⟨h.intervals, h.length, h.head, h.last, hs⟩⟩

end Axis

namespace Dataset

variable {ds ds' x y : Dataset V} {env : Env V} {n g depth : ℕ} {json : Json}

/-- What the members of a grid's description are. -/
theorem gridMembers_eq_some {id : String} {axes : List Axis} {cells : List Json}
    (h : gridMembers json = some (id, axes, cells)) :
    json.get "grid" = some (.arr cells) ∧ (∀ axis ∈ axes, axis.Faithful)
      ∧ (cells.length : ℤ) = (axes.map Axis.intervals).prod := by
  unfold gridMembers at h
  obtain ⟨jaxes, -, h⟩ := Option.bind_eq_some_iff.1 h
  obtain ⟨jcells, hcells, h⟩ := Option.bind_eq_some_iff.1 h
  obtain ⟨_, -, h⟩ := Option.bind_eq_some_iff.1 h
  obtain ⟨axes', hm, h⟩ := Option.bind_eq_some_iff.1 h
  split_ifs at h with hlen
  obtain ⟨rfl, rfl, rfl⟩ : _ = id ∧ axes' = axes ∧ jcells = cells := by simpa using h
  refine ⟨?_, fun axis ha => ?_, hlen⟩
  · obtain ⟨j, hj, hje⟩ := Option.bind_eq_some_iff.1 hcells
    rw [hj, Json.elements?_eq_some.1 hje]
  · obtain ⟨i, hi⟩ := List.mem_iff_getElem?.1 ha
    obtain ⟨j, -, hj⟩ := exists_of_forall₂ (Json.mapM_eq_some_iff.1 hm).flip hi
    exact (Axis.createFromJson_eq_some.1 hj).2

section Grown

/-- A dataset to which fragments and grids have been added, none of them registered. -/
structure Grown (ds ds' : Dataset V) : Prop where
  fragments : ds.fragments <+: ds'.fragments
  heap : ds.gridHeap <+: ds'.gridHeap
  eq : ds' = { ds with fragments := ds'.fragments, gridHeap := ds'.gridHeap }

namespace Grown

theorem refl (ds : Dataset V) : Grown ds ds := ⟨List.prefix_rfl, List.prefix_rfl, rfl⟩

theorem trans {ds₁ ds₂ ds₃ : Dataset V} (h : Grown ds₁ ds₂) (h' : Grown ds₂ ds₃) :
    Grown ds₁ ds₃ := by
  refine ⟨h.fragments.trans h'.fragments, h.heap.trans h'.heap, ?_⟩
  rw [h'.eq, h.eq]

theorem getElem?_fragments (h : Grown ds ds') {r : ℕ} {f : Fragment V}
    (hf : ds.fragments[r]? = some f) : ds'.fragments[r]? = some f := by
  obtain ⟨t, ht⟩ := h.fragments
  rw [← ht, List.getElem?_append_left (List.getElem?_eq_some_iff.1 hf).1, hf]

theorem getElem?_gridHeap (h : Grown ds ds') {k : ℕ} {sub : Grid}
    (hk : ds.gridHeap[k]? = some sub) : ds'.gridHeap[k]? = some sub := by
  obtain ⟨t, ht⟩ := h.heap
  rw [← ht, List.getElem?_append_left (List.getElem?_eq_some_iff.1 hk).1, hk]

theorem dataspace (h : Grown ds ds') : ds'.dataspace = ds.dataspace := by rw [h.eq]

theorem dims (h : Grown ds ds') : ds'.dims = ds.dims := congrArg Dataspace.dims h.dataspace

theorem shapes (h : Grown ds ds') : ds'.shapes = ds.shapes := by
  rw [h.eq]
  rfl

theorem tableWf (h : Grown ds ds') (hw : TableWf ds) : TableWf ds' := by
  have ht : ds'.table = ds.table := by rw [h.eq]
  refine ⟨by rw [Dataset.shapes, ht]; exact hw.nodup, fun e he => ?_⟩
  obtain ⟨f, hf, hl⟩ := hw.live e (ht ▸ he)
  exact ⟨f, h.getElem?_fragments hf, hl⟩

end Grown

/-- The fragments are still there, and the grids from a place on. -/
structure Agrees (b : ℕ) (ds ds' : Dataset V) : Prop where
  heap : ∀ k sub, b ≤ k → ds.gridHeap[k]? = some sub → ds'.gridHeap[k]? = some sub
  fragment : ∀ r f, ds.fragment r = .ok f → ds'.fragment r = .ok f

theorem Grown.agrees (h : Grown ds ds') (b : ℕ) : Agrees b ds ds' :=
  ⟨fun _ _ _ hk => h.getElem?_gridHeap hk, fun _ _ hf =>
    have hf := fragment_eq_ok.1 hf
    fragment_eq_ok.2 ⟨h.getElem?_fragments hf.1, hf.2⟩⟩

theorem Agrees.trans {b : ℕ} {ds₁ ds₂ ds₃ : Dataset V} (h : Agrees b ds₁ ds₂)
    (h' : Agrees b ds₂ ds₃) : Agrees b ds₁ ds₃ :=
  ⟨fun k sub hb hk => h'.heap k sub hb (h.heap k sub hb hk),
    fun r f hf => h'.fragment r f (h.fragment r f hf)⟩

theorem Agrees.mono {b b' : ℕ} (h : Agrees b ds ds') (hb : b ≤ b') : Agrees b' ds ds' :=
  ⟨fun k sub hk => h.heap k sub (hb.trans hk), h.fragment⟩

end Grown

section Create

/-- A fragment can be made from the description: there is one of its shape, or its backend is
there. -/
def AcceptableFragment (env : Env V) (space : Dataspace) (shapes : List Hypercube) (json : Json) :
    Prop :=
  ∃ d, FragmentDescription.parse space json = some d
    ∧ (d.space.getExtends ∈ shapes ∨ getBackend env d.pid ≠ none)

/-- The cells that are accepted, given which grids are. -/
inductive AcceptableCell (env : Env V) (space : Dataspace) (shapes : List Hypercube)
    (nested : Json → Prop) (json : Json) : Prop
  | grid {sub : Json} : json.get "grid" = some sub → json.get "fragment" = none → nested sub →
    AcceptableCell env space shapes nested json
  | fragment {f : Json} : json.get "grid" = none → json.get "fragment" = some f →
    AcceptableFragment env space shapes f → AcceptableCell env space shapes nested json
  | empty : json.members? ≠ none → json.get "grid" = none → json.get "fragment" = none →
    AcceptableCell env space shapes nested json

/-- The values that are accepted, for a dataset with the given dataspace and shapes.  The number
bounds the nesting. -/
def Acceptable (env : Env V) (space : Dataspace) (shapes : List Hypercube) : ℕ → Json → Prop
  | 0, _ => False
  | n + 1, json => ∃ id axes cells, gridMembers json = some (id, axes, cells)
    ∧ ∀ j ∈ cells, AcceptableCell env space shapes (Acceptable env space shapes n) j

/-- What is made of a cell, given what is made of grids. -/
inductive EncodesCell (space : Dataspace) (ds : Dataset V) (nested : Json → ℕ → Prop)
    (json : Json) :
    GridEntry → Prop
  | grid {sub : Json} {h : ℕ} : json.get "grid" = some sub → json.get "fragment" = none →
    nested sub h → EncodesCell space ds nested json ⟨some h, none⟩
  | fragment {j : Json} {d : FragmentDescription} {r : ℕ} {f : Fragment V} :
    json.get "grid" = none → json.get "fragment" = some j →
    FragmentDescription.parse space j = some d → ds.fragment r = .ok f →
    f.shape = d.space.getExtends → EncodesCell space ds nested json ⟨none, some r⟩
  | empty : json.get "grid" = none → json.get "fragment" = none →
    EncodesCell space ds nested json ⟨none, none⟩

/-- The grid is what is made of the value: it has the axes and an entry for each cell, and its
subgrids come after it. -/
def Encodes (space : Dataspace) (ds : Dataset V) : ℕ → Json → ℕ → Prop
  | 0, _, _ => False
  | n + 1, json, g => ∃ (id : String) (axes : List Axis) (cells : List Json) (grid : Grid)
      (entries : List GridEntry), gridMembers json = some (id, axes, cells)
    ∧ ds.gridHeap[g]? = some grid ∧ grid.id = some id ∧ grid.axes = axes
    ∧ grid.cells = some entries ∧ grid.emptyCells = countEmpty entries
    ∧ List.Forall₂ (EncodesCell space ds fun j h => g < h ∧ Encodes space ds n j h) cells entries

/-- What `esdmI_grid_createFromJson` does, but for registering the grid.  The grid that it makes
stays as it is while grids behind it are added. -/
structure Builds (env : Env V) (n : ℕ) (json : Json) (x y : Dataset V) (o : Option ℕ) : Prop where
  grown : Grown x y
  accepts : o ≠ none ↔ Acceptable env x.dataspace x.shapes n json
  heap : o = none → y.gridHeap = x.gridHeap
  place : ∀ g, o = some g → g = x.gridHeap.length
  encodes : ∀ g, o = some g → ∀ z, Agrees x.gridHeap.length y z → Encodes x.dataspace z n json g

theorem parse_members {space : Dataspace} {d : FragmentDescription}
    (h : FragmentDescription.parse space json = some d) : json.members? ≠ none := by
  unfold FragmentDescription.parse at h
  obtain ⟨pid, hpid, -⟩ := Option.bind_eq_some_iff.1 h
  cases json <;> simp [Json.get, Json.members?] at hpid ⊢

theorem createFragmentFromMetadata_spec (hw : TableWf x) : ∃ y o,
    x.createFragmentFromMetadata env json = (y, o) ∧ Grown x y ∧ y.gridHeap = x.gridHeap
      ∧ (o ≠ none ↔ AcceptableFragment env x.dataspace x.shapes json)
      ∧ ∀ r, o = some r → ∃ d f, FragmentDescription.parse x.dataspace json = some d
        ∧ y.fragment r = .ok f ∧ f.shape = d.space.getExtends := by
  unfold createFragmentFromMetadata AcceptableFragment
  rcases hp : FragmentDescription.parse x.dataspace json with _ | d
  · exact ⟨x, none, rfl, .refl x, rfl, by simp, by simp⟩
  dsimp only
  rcases hl : x.lookupFragmentForShape d.space with _ | r
  · have hnot : d.space.getExtends ∉ x.shapes := lookupForShape_eq_none.1 hl
    rcases hb : getBackend env d.pid with _ | backend
    · exact ⟨x, none, rfl, .refl x, rfl, by simp [hnot, hb], by simp⟩
    · refine ⟨_, _, rfl, ⟨List.prefix_append .., List.prefix_rfl, rfl⟩, rfl, by simp [hb], ?_⟩
      rintro r ⟨⟩
      exact ⟨d, _, rfl, fragment_eq_ok.2 ⟨List.getElem?_concat_length, rfl⟩, rfl⟩
  · have hm := mem_of_lookupForShape hl
    have hs : d.space.getExtends ∈ x.shapes := mem_shapes.2 ⟨r, hm⟩
    refine ⟨x, some r, rfl, .refl x, rfl, by simp [hs], ?_⟩
    rintro r ⟨⟩
    obtain ⟨f, hf, hshape⟩ := hw.fragment_eq hm
    exact ⟨d, f, rfl, hf, hshape⟩

section Cells

variable {nested : Json → Dataset V → Outcome (Dataset V × Option ℕ)} {b : ℕ}

theorem createCell_spec (hn : ∀ sub, json.get "grid" = some sub →
      ∃ y o, nested sub x = .ok (y, o) ∧ Builds env n sub x y o)
    (hw : TableWf x) (hb : b ≤ x.gridHeap.length) :
    ∃ y o, createCell env nested json x = .ok (y, o) ∧ Grown x y
      ∧ (o ≠ none
        ↔ AcceptableCell env x.dataspace x.shapes (Acceptable env x.dataspace x.shapes n) json)
      ∧ ∀ c, o = some c → ∀ z, Agrees b y z →
        EncodesCell x.dataspace z (fun j h => b ≤ h ∧ Encodes x.dataspace z n j h) json c := by
  unfold createCell
  rcases hm : json.members? with _ | l
  · have hget : ∀ key, json.get key = none := by
      intro key
      cases json <;> simp [Json.get, Json.members?] at hm ⊢
    refine ⟨x, none, rfl, .refl x, iff_of_false (by simp) ?_, by simp⟩
    rintro (⟨hg, -, -⟩ | ⟨-, hf, -⟩ | ⟨h, -, -⟩)
    · simp [hget] at hg
    · simp [hget] at hf
    · exact h hm
  rcases hg : json.get "grid" with _ | sub
  · rcases hf : json.get "fragment" with _ | f
    · refine ⟨x, some ⟨none, none⟩, rfl, .refl x, iff_of_true (by simp) ?_, ?_⟩
      · exact .empty (by simp [hm]) hg hf
      · rintro c ⟨⟩ z -
        exact .empty hg hf
    · obtain ⟨y, o, heq, hgrown, -, hacc, hmade⟩ :=
        @createFragmentFromMetadata_spec V x env f hw
      have hcell : o ≠ none
          ↔ AcceptableCell env x.dataspace x.shapes
            (Acceptable env x.dataspace x.shapes n) json := by
        rw [hacc]
        refine ⟨fun h => .fragment hg hf h, ?_⟩
        rintro (⟨h, -, -⟩ | ⟨-, hf', h⟩ | ⟨-, -, h⟩)
        · simp [hg] at h
        · obtain rfl := Option.some.inj (hf.symm.trans hf')
          exact h
        · simp [hf] at h
      dsimp only
      rcases hfm : f.members? with _ | _
      · refine ⟨x, none, rfl, .refl x, iff_of_false (by simp) fun h => ?_, by simp⟩
        obtain ⟨d, hd, -⟩ := hacc.1 (hcell.2 h)
        exact parse_members hd hfm
      · dsimp only
        rw [heq]
        refine ⟨y, o.map fun r => ⟨none, some r⟩, rfl, hgrown, by simpa using hcell, ?_⟩
        rintro c hc z hz
        obtain ⟨r, hr, rfl⟩ := Option.map_eq_some_iff.1 hc
        obtain ⟨d, fr, hd, hfr, hs⟩ := hmade r hr
        exact .fragment hg hf hd (hz.fragment r fr hfr) hs
  · rcases hf : json.get "fragment" with _ | f
    · obtain ⟨y, o, heq, hbuild⟩ := hn sub hg
      dsimp only
      rw [heq, Outcome.ok_bind]
      refine ⟨y, _, rfl, hbuild.grown, ?_, ?_⟩
      · have : o.map (fun h => (⟨some h, none⟩ : GridEntry)) ≠ none ↔ o ≠ none := by simp
        rw [this, hbuild.accepts]
        refine ⟨fun h => .grid hg hf h, ?_⟩
        rintro (⟨h, -, h'⟩ | ⟨h, -, -⟩ | ⟨-, h, -⟩)
        · obtain rfl := Option.some.inj (hg.symm.trans h)
          exact h'
        · simp [hg] at h
        · simp [hg] at h
      · rintro c hc z hz
        obtain ⟨h, rfl, rfl⟩ := Option.map_eq_some_iff.1 hc
        exact .grid hg hf ⟨hb.trans (hbuild.place h rfl).ge, hbuild.encodes h rfl z (hz.mono hb)⟩
    · refine ⟨x, none, rfl, .refl x, iff_of_false (by simp) ?_, by simp⟩
      rintro (⟨-, h, -⟩ | ⟨h, -, -⟩ | ⟨-, h, -⟩)
      · simp [hf] at h
      · simp [hg] at h
      · simp [hg] at h

theorem createCells_spec : ∀ {cells : List Json} {x : Dataset V},
    (∀ j ∈ cells, ∀ sub, j.get "grid" = some sub → ∀ x' : Dataset V, TableWf x' →
      ∃ y o, nested sub x' = .ok (y, o) ∧ Builds env n sub x' y o) →
    TableWf x → b ≤ x.gridHeap.length →
    ∃ y o, createCells env nested cells x = .ok (y, o) ∧ Grown x y
      ∧ (o ≠ none ↔ ∀ j ∈ cells,
        AcceptableCell env x.dataspace x.shapes (Acceptable env x.dataspace x.shapes n) j)
      ∧ ∀ entries, o = some entries → ∀ z, Agrees b y z →
        List.Forall₂ (EncodesCell x.dataspace z fun j h => b ≤ h ∧ Encodes x.dataspace z n j h)
          cells entries
  | [], x, _, _, _ => by
    refine ⟨x, some [], rfl, .refl x, by simp, ?_⟩
    rintro entries ⟨⟩ z -
    exact .nil
  | j :: cells, x, hn, hw, hb => by
    obtain ⟨y, o, hcell, hg, hacc, henc⟩ := createCell_spec
      (fun sub hsub => hn j List.mem_cons_self sub hsub x hw) hw hb
    rw [createCells, hcell, Outcome.ok_bind, List.forall_mem_cons, ← hacc]
    rcases o with _ | c
    · exact ⟨y, none, rfl, hg, by simp, by simp⟩
    obtain ⟨y', o', heq, hg', hacc', henc'⟩ := createCells_spec
      (fun j hj => hn j (List.mem_cons_of_mem _ hj)) (hg.tableWf hw) (hb.trans hg.heap.length_le)
    rw [hg.dataspace, hg.shapes] at hacc'
    rw [hg.dataspace] at henc'
    dsimp only
    rw [heq]
    refine ⟨y', o'.map (c :: ·), rfl, hg.trans hg', ?_, ?_⟩
    · rw [← hacc']
      simp
    · rintro entries he z hz
      obtain ⟨entries, rfl, rfl⟩ := Option.map_eq_some_iff.1 he
      exact .cons (henc c rfl z ((hg'.agrees b).trans hz)) (henc' entries rfl z hz)

end Cells

/-- The end of `esdmI_grid_createFromJson`: a top-level grid is registered. -/
def registerCreated (parent : Option ℕ) (ds : Dataset V) :
    Option (ℕ × ℕ) → Outcome (Dataset V × Option ℕ)
  | none => .ok (ds, none)
  | some (g, emptyCells) =>
    if parent = none then
      if emptyCells = 0 then do
        let ds ← (ds.registerGrid g).registerGridCompletion g
        return (ds, some g)
      else .ok (ds.registerGrid g, some g)
    else .ok (ds, some g)

/-- Making a grid of a value, given how its subgrids are made. -/
theorem gridCreateFromJson_step (parent : Option ℕ)
    (ih : ∀ (p : ℕ) (sub : Json) (x : Dataset V), sub.depth < depth → TableWf x →
      ∃ y o, gridCreateFromJson env depth (some p) sub x = .ok (y, o) ∧ Builds env depth sub x y o)
    (hdepth : json.depth < depth + 1) (hw : TableWf x) :
    ∃ y o, gridCreateFromJson env (depth + 1) parent json x = registerCreated parent y o
      ∧ Builds env (depth + 1) json x y (o.map Prod.fst)
      ∧ ∀ g e, o = some (g, e) → ∃ grid, y.gridHeap[g]? = some grid ∧ grid.emptyCells = e := by
  rw [gridCreateFromJson]
  rcases hm : gridMembers json with _ | ⟨id, axes, cells⟩
  · refine ⟨x, none, rfl, ⟨.refl x, iff_of_false (by simp) ?_, fun _ => rfl, by simp, by simp⟩,
      by simp⟩
    rintro ⟨id, axes, cells, h, -⟩
    simp [hm] at h
  dsimp only
  generalize hhole : (⟨parent, some id, 0, some (List.replicate cells.length ⟨none, none⟩), axes⟩ :
    Grid) = hole
  have hsub : ∀ j ∈ cells, ∀ sub, j.get "grid" = some sub → sub.depth < depth := by
    intro j hj sub hs
    have h1 := Json.depth_lt_of_get hs
    have h2 := Json.depth_lt_arr hj
    have h3 := Json.depth_lt_of_get (gridMembers_eq_some hm).1
    omega
  obtain ⟨y, o, heq, hgrown, hacc, henc⟩ :=
    @createCells_spec V env depth (gridCreateFromJson env depth (some x.gridHeap.length))
      (x.gridHeap.length + 1) cells { x with gridHeap := x.gridHeap ++ [hole] }
      (fun j hj sub hs x' hx' => ih _ sub x' (hsub j hj sub hs) hx') (hw.congr rfl rfl) (by simp)
  have hacc' : o ≠ none ↔ Acceptable env x.dataspace x.shapes (depth + 1) json := by
    rw [hacc]
    refine ⟨fun h => ⟨id, axes, cells, hm, h⟩, ?_⟩
    rintro ⟨_, _, _, hm', h⟩
    obtain ⟨rfl, rfl, rfl⟩ : _ = id ∧ _ = axes ∧ _ = cells := by simpa [hm] using hm'.symm
    exact h
  rw [heq, Outcome.ok_bind]
  obtain ⟨rest, hrest⟩ := hgrown.heap
  rcases o with _ | entries
  · refine ⟨{ y with gridHeap := x.gridHeap }, none, rfl,
      ⟨⟨hgrown.fragments, List.prefix_rfl, ?_⟩, by simpa using hacc',
        fun _ => rfl, by simp, by simp⟩,
      by simp⟩
    rw [hgrown.eq]
  generalize hnew : (⟨parent, some id, (countEmpty entries : ℤ), some entries, axes⟩ : Grid) = new
  have hheap : (y.setGrid x.gridHeap.length new).gridHeap = x.gridHeap ++ new :: rest := by
    rw [setGrid, ← hrest]
    simp
  refine ⟨y.setGrid x.gridHeap.length new, some (x.gridHeap.length, countEmpty entries), ?_,
    ⟨⟨hgrown.fragments, ⟨new :: rest, hheap.symm⟩, ?_⟩, by simpa using hacc', by simp, ?_, ?_⟩, ?_⟩
  · dsimp only [registerCreated]
    rw [hnew]
    rfl
  · rw [setGrid, hgrown.eq]
  · rintro g ⟨⟩
    rfl
  · rintro g ⟨⟩ z hz
    have hget : z.gridHeap[x.gridHeap.length]? = some new :=
      hz.heap _ new le_rfl (by rw [hheap]; simp)
    have hz' : Agrees (x.gridHeap.length + 1) y z := by
      refine ⟨fun k sub hk hks => hz.heap k sub (by omega) ?_, hz.fragment⟩
      rw [setGrid, List.getElem?_set_ne (by omega), hks]
    subst hnew
    exact ⟨id, axes, cells, _, entries, hm, hget, rfl, rfl, rfl, rfl, henc entries rfl z hz'⟩
  · rintro g e ⟨⟩
    refine ⟨new, by rw [hheap]; simp, by rw [← hnew]⟩

/-- Making a grid of a value. -/
theorem gridCreateFromJson_spec (parent : Option ℕ) (hdepth : json.depth < depth) (hw : TableWf x) :
    ∃ y o, gridCreateFromJson env depth parent json x = registerCreated parent y o
      ∧ Builds env depth json x y (o.map Prod.fst)
      ∧ ∀ g e, o = some (g, e) → ∃ grid, y.gridHeap[g]? = some grid ∧ grid.emptyCells = e := by
  induction depth generalizing json x parent with
  | zero => exact absurd hdepth (Nat.not_lt_zero _)
  | succ depth ih =>
    refine gridCreateFromJson_step parent (fun p sub x hlt hw => ?_) hdepth hw
    obtain ⟨y, o, heq, hb, -⟩ := ih (some p) hlt hw
    refine ⟨y, _, heq.trans ?_, hb⟩
    rcases o with _ | ⟨g, e⟩ <;> rfl

end Create

section Register

/-- How the dataset's list of grids is laid out. -/
structure GridList (ds : Dataset V) : Prop where
  length : ds.grids.length = ds.gridCount + ds.incompleteGridCount
  valid : ∀ g ∈ ds.grids, g < ds.gridHeap.length

theorem Listed.gridList (h : Listed ds) : GridList ds := ⟨h.length, h.valid⟩

/-- A grid that has just been made is registered as complete if it has no empty cells. -/
theorem registerCreated_eq_ok (hl : GridList ds) (h : Grown ds ds') (e : ℕ) :
    ∃ ds'', registerCreated none ds' (some (ds.gridHeap.length, e))
        = .ok (ds'', some ds.gridHeap.length)
      ∧ ds''.gridHeap = ds'.gridHeap ∧ ds''.fragments = ds'.fragments
      ∧ ds''.dataspace = ds.dataspace
      ∧ (ds.gridHeap.length ∈ ds''.grids.take ds''.gridCount ↔ e = 0) := by
  have hgrids : ds'.grids = ds.grids := by rw [h.eq]
  have hcount : ds'.gridCount = ds.gridCount := by rw [h.eq]
  have hincomplete : ds'.incompleteGridCount = ds.incompleteGridCount := by rw [h.eq]
  have hfresh : ds.gridHeap.length ∉ (ds.grids ++ [ds.gridHeap.length]).take ds.gridCount := by
    have := hl.length
    rw [List.take_append_of_le_length (by omega)]
    exact fun hm => lt_irrefl _ (hl.valid _ (List.mem_of_mem_take hm))
  dsimp only [registerCreated]
  rw [if_pos rfl]
  by_cases he : e = 0
  · obtain ⟨grids, heq, -, htake, -⟩ :=
      @registerGridCompletion_eq V (ds'.registerGrid ds.gridHeap.length) ds.gridHeap.length
        (by simp [registerGrid, hgrids, hcount, hincomplete, hl.length]; omega)
        (by simp [registerGrid]) (by simpa [registerGrid, hgrids, hcount] using hfresh)
    rw [if_pos he, heq]
    refine ⟨_, rfl, rfl, rfl, h.dataspace, iff_of_true ?_ he⟩
    dsimp only
    rw [htake]
    simp
  · rw [if_neg he]
    refine ⟨_, rfl, rfl, rfl, h.dataspace, iff_of_false ?_ he⟩
    simpa [registerGrid, hgrids, hcount] using hfresh

/-- What a top-level call makes of a value. -/
theorem gridCreateFromString_spec (hw : TableWf x) (hl : GridList x) :
    (∃ y, gridCreateFromString env json x = .ok (y, none) ∧ Grown x y ∧ y.gridHeap = x.gridHeap
      ∧ ¬ Acceptable env x.dataspace x.shapes (json.depth + 1) json)
    ∨ ∃ y g grid, gridCreateFromString env json x = .ok (y, some g)
      ∧ Acceptable env x.dataspace x.shapes (json.depth + 1) json
      ∧ y.dataspace = x.dataspace ∧ Encodes x.dataspace y (json.depth + 1) json g
      ∧ y.gridHeap[g]? = some grid
      ∧ (g ∈ y.grids.take y.gridCount ↔ grid.emptyCells = 0) := by
  obtain ⟨y, o, heq, hb, he⟩ := gridCreateFromJson_spec none (Nat.lt_succ_self json.depth) hw
  unfold gridCreateFromString
  rw [heq]
  rcases o with _ | ⟨g, e⟩
  · exact .inl ⟨y, rfl, hb.grown, hb.heap rfl, by simpa using hb.accepts⟩
  obtain rfl := hb.place g rfl
  obtain ⟨grid, hgrid, hcount⟩ := he _ _ rfl
  obtain ⟨y', heq', hheap, hfrag, hspace, hreg⟩ := registerCreated_eq_ok hl hb.grown e
  have hagrees : Agrees x.gridHeap.length y y' :=
    ⟨fun k sub _ hks => by rw [hheap, hks], fun r f hf => by
      rw [fragment_eq_ok, hfrag]
      exact fragment_eq_ok.1 hf⟩
  refine .inr ⟨y', _, grid, heq', by simpa using hb.accepts, hspace, hb.encodes _ rfl y' hagrees,
    by rw [hheap, hgrid], ?_⟩
  rw [hreg, hcount]
  simp

end Register

section Placed

open Grid (CellAt Hierarchy Level Nested box exists_cellAt exists_subgridAt_of_mem fragmentAt
  fragmentIn mem_subgrids_of_subgridAt nested_iff sizes subgridAt_eq_some)

/-- The fragments in the grid's cells lie where the cells are. -/
def FragmentsPlaced (ds : Dataset V) (grid : Grid) : Prop :=
  ∀ i r cube, grid.fragmentAt i = some r → CellAt grid.axes i cube →
    ∃ f, ds.fragment r = .ok f ∧ f.shape = cube

/-- A well-formed grid: at every nesting level it has the rank of the dataset and increasing bounds,
subgrids fill their cells, and so do fragments. -/
structure WellPlaced (ds : Dataset V) (g : ℕ) : Prop where
  hierarchy : Hierarchy ds.gridHeap ds.dims g
  fragments : Nested (FragmentsPlaced ds) ds.gridHeap g

/-- The search for a memspace's cell always returns, and with no fragment but of its extents. -/
def LooksUp (ds : Dataset V) (g : ℕ) : Prop :=
  ∀ space : Dataspace, space.dims = ds.dims → ∃ (ds' : Dataset V) (found : Option (ℕ × ℕ)),
    findCellInHierarchy space ds.gridHeap.length g ds
        = .ok (ds', found.map fun c => (c.1, (c.2 : ℤ)))
      ∧ ∀ c r, found = some c → fragmentIn ds.gridHeap c = some r →
        ∃ f, ds.fragment r = .ok f ∧ f.shape = space.getExtends

theorem WellPlaced.looksUp (h : WellPlaced ds g) : LooksUp ds g := by
  intro space hd
  obtain ⟨ds', found, heq, hfound, -⟩ := findCellInHierarchy_spec ds ds.gridHeap.length
    (Nat.sub_le _ g) (hd ▸ h.hierarchy)
  refine ⟨ds', found, heq, fun c r hc hr => ?_⟩
  obtain ⟨hleaf, grid, hgrid, hcell⟩ := (hfound c).1 hc
  rw [fragmentIn, hgrid] at hr
  exact h.fragments c.1 grid hleaf.reaches hgrid c.2 r _ hr hcell

/-- What the value must say of each grid: the rank is that of the dataset, the bounds increase, and
the subgrids and the fragments have the extents of their cells. -/
structure ConsistentLevel (space : Dataspace) (axes : List Axis) (cells : List Json) : Prop where
  rank : axes.length = space.dims
  increasing : ∀ axis ∈ axes, axis.allBounds.Pairwise (· < ·)
  subgrid : ∀ i j sub cube, cells[i]? = some j → j.get "grid" = some sub → CellAt axes i cube →
    ∃ id axes' cells', gridMembers sub = some (id, axes', cells') ∧ box axes' = cube
  fragment : ∀ i j f d cube, cells[i]? = some j → j.get "fragment" = some f → CellAt axes i cube →
    FragmentDescription.parse space f = some d → d.space.getExtends = cube

/-- The values that describe well-formed grids. -/
inductive Consistent (space : Dataspace) : Json → Prop
  | intro {json : Json} {id : String} {axes : List Axis} {cells : List Json} :
    gridMembers json = some (id, axes, cells) → ConsistentLevel space axes cells →
    (∀ j ∈ cells, ∀ sub, j.get "grid" = some sub → Consistent space sub) → Consistent space json

theorem Consistent.level {space : Dataspace} {id : String} {axes : List Axis} {cells : List Json}
    (h : Consistent space json) (hm : gridMembers json = some (id, axes, cells)) :
    ConsistentLevel space axes cells ∧ ∀ j ∈ cells, ∀ sub, j.get "grid" = some sub
      → Consistent space sub := by
  cases h with
  | intro hm' hl hsub =>
    obtain ⟨rfl, rfl, rfl⟩ : _ = id ∧ _ = axes ∧ _ = cells := by simpa [hm] using hm'.symm
    exact ⟨hl, hsub⟩

section Level

variable {nested : Json → ℕ → Prop} {axes : List Axis} {cells : List Json} {grid : Grid}
  {entries : List GridEntry} {id : String} (hm : gridMembers json = some (id, axes, cells))
  (haxes : grid.axes = axes) (hcells : grid.cells = some entries)
  (henc : List.Forall₂ (EncodesCell ds.dataspace ds nested) cells entries)

include hcells henc

/-- The cells with a subgrid are those whose value has one. -/
theorem subgridAt_iff {i h : ℕ} : grid.subgridAt i = some h ↔ ∃ j sub, cells[i]? = some j
    ∧ entries[i]? = some ⟨some h, none⟩ ∧ j.get "grid" = some sub ∧ nested sub h := by
  constructor
  · intro hs
    obtain ⟨cs, e, hcs, hi, he⟩ := subgridAt_eq_some.1 hs
    obtain rfl := Option.some.inj (hcells.symm.trans hcs)
    obtain ⟨j, hj, hje⟩ := exists_of_forall₂ henc.flip hi
    cases hje with
    | grid hg _ hn =>
      obtain rfl := Option.some.inj he
      exact ⟨j, _, hj, hi, hg, hn⟩
    | fragment => cases he
    | empty => cases he
  · rintro ⟨j, sub, -, hi, -⟩
    exact subgridAt_eq_some.2 ⟨entries, _, hcells, hi, rfl⟩

theorem exists_subgridAt {i : ℕ} {j sub : Json} (hj : cells[i]? = some j)
    (hs : j.get "grid" = some sub) : ∃ h, grid.subgridAt i = some h ∧ nested sub h := by
  obtain ⟨e, he, hje⟩ := exists_of_forall₂ henc hj
  cases hje with
  | grid hg _ hn =>
    obtain rfl := Option.some.inj (hs.symm.trans hg)
    exact ⟨_, subgridAt_eq_some.2 ⟨entries, _, hcells, he, rfl⟩, hn⟩
  | fragment hg => simp [hs] at hg
  | empty hg => simp [hs] at hg

/-- The cells with a fragment are those whose value describes one, which has its shape. -/
theorem fragmentAt_iff {i r : ℕ} : grid.fragmentAt i = some r ↔ ∃ j f d fr, cells[i]? = some j
    ∧ entries[i]? = some ⟨none, some r⟩ ∧ j.get "fragment" = some f
    ∧ FragmentDescription.parse ds.dataspace f = some d ∧ ds.fragment r = .ok fr
    ∧ fr.shape = d.space.getExtends := by
  unfold fragmentAt
  rw [hcells, Option.bind_some]
  constructor
  · intro hs
    obtain ⟨e, hi, he⟩ := Option.bind_eq_some_iff.1 hs
    obtain ⟨j, hj, hje⟩ := exists_of_forall₂ henc.flip hi
    cases hje with
    | grid => cases he
    | fragment _ hf hd hfr hsh =>
      obtain rfl := Option.some.inj he
      exact ⟨j, _, _, _, hj, hi, hf, hd, hfr, hsh⟩
    | empty => cases he
  · rintro ⟨_, _, _, _, -, hi, -⟩
    rw [hi]
    rfl

theorem exists_fragmentAt {i : ℕ} {j f : Json} {d : FragmentDescription} (hj : cells[i]? = some j)
    (hf : j.get "fragment" = some f) (hd : FragmentDescription.parse ds.dataspace f = some d) :
    ∃ r fr, grid.fragmentAt i = some r ∧ ds.fragment r = .ok fr
      ∧ fr.shape = d.space.getExtends := by
  obtain ⟨e, he, hje⟩ := exists_of_forall₂ henc hj
  cases hje with
  | grid _ hn => simp [hf] at hn
  | fragment _ hf' hd' hfr hsh =>
    obtain rfl := Option.some.inj (hf.symm.trans hf')
    obtain rfl := Option.some.inj (hd.symm.trans hd')
    exact ⟨_, _, by simp [fragmentAt, hcells, he], hfr, hsh⟩
  | empty _ hn => simp [hf] at hn

include hm haxes

/-- One grid is as it should be exactly if the value says so. -/
theorem level_iff (hsub : ∀ sub h, nested sub h → g < h ∧ ∃ id axes' cells' child,
      gridMembers sub = some (id, axes', cells') ∧ ds.gridHeap[h]? = some child
        ∧ child.axes = axes') :
    Level ds.gridHeap ds.dims g grid ∧ FragmentsPlaced ds grid
      ↔ ConsistentLevel ds.dataspace axes cells := by
  obtain ⟨-, hfaith, hlen⟩ := gridMembers_eq_some hm
  subst haxes
  constructor
  · rintro ⟨hl, hf⟩
    refine ⟨hl.rank, fun axis ha => (hl.proper axis ha).sorted, ?_, ?_⟩
    · intro i j sub cube hj hs hcell
      obtain ⟨h, hat, hn⟩ := exists_subgridAt hcells henc hj hs
      obtain ⟨-, id', axes', cells', child, hmem, hchild, rfl⟩ := hsub sub h hn
      obtain ⟨-, child', hchild', hcell'⟩ := hl.child i h hat
      obtain rfl := Option.some.inj (hchild.symm.trans hchild')
      exact ⟨id', _, cells', hmem, hcell'.eq hcell⟩
    · intro i j f d cube hj hjf hcell hd
      obtain ⟨r, fr, hat, hfr, hsh⟩ := exists_fragmentAt hcells henc hj hjf hd
      obtain ⟨fr', hfr', hsh'⟩ := hf i r cube hat hcell
      obtain rfl := Except.ok.inj (hfr.symm.trans hfr')
      exact hsh.symm.trans hsh'
  · intro hc
    have hp : ∀ axis ∈ grid.axes, axis.Proper := fun axis ha =>
      (hfaith axis ha).proper_iff.2 (hc.increasing axis ha)
    refine ⟨⟨hc.rank, hp, ?_, ?_, ?_⟩, ?_⟩
    · intro cs hcs
      obtain rfl := Option.some.inj (hcells.symm.trans hcs)
      rw [← henc.length_eq]
      exact hlen
    · intro i h hat
      obtain ⟨j, sub, -, hi, -⟩ := (subgridAt_iff hcells henc).1 hat
      simp [fragmentAt, hcells, hi]
    · intro i h hat
      obtain ⟨j, sub, hj, -, hs, hn⟩ := (subgridAt_iff hcells henc).1 hat
      obtain ⟨hlt, _, _, _, child, hmem, hchild, rfl⟩ := hsub sub h hn
      have hi := (List.getElem?_eq_some_iff.1 hj).1
      obtain ⟨cube, hcell⟩ := exists_cellAt hp (show (i : ℤ) < (sizes grid.axes).prod by
        rw [sizes, ← hlen]
        exact_mod_cast hi)
      obtain ⟨_, _, _, hmem', rfl⟩ := hc.subgrid i j sub cube hj hs hcell
      obtain ⟨-, rfl, -⟩ : _ ∧ _ = child.axes ∧ _ := by simpa [hmem] using hmem'.symm
      exact ⟨hlt, child, hchild, hcell⟩
    · intro i r cube hat hcell
      obtain ⟨j, f, d, fr, hj, -, hjf, hd, hfr, hsh⟩ := (fragmentAt_iff hcells henc).1 hat
      exact ⟨fr, hfr, hsh.trans (hc.fragment i j f d cube hj hjf hcell hd)⟩

end Level

/-- The grid that is made of a value is well-formed exactly if the value says so. -/
theorem Encodes.placed_iff : ∀ {n g : ℕ} {json : Json}, Encodes ds.dataspace ds n json g →
    (WellPlaced ds g ↔ Consistent ds.dataspace json)
  | n + 1, g, json, ⟨id, axes, cells, grid, entries, hm, hg, _, haxes, hcells, _, henc⟩ => by
    have hlevel := level_iff hm haxes hcells henc fun sub h hn => by
      obtain ⟨hlt, henc'⟩ := hn
      obtain _ | n := n
      · exact henc'.elim
      obtain ⟨id', axes', cells', child, -, hm', hg', -, haxes', -⟩ := henc'
      exact ⟨hlt, id', axes', cells', child, hm', hg', haxes'⟩
    constructor
    · rintro ⟨hh, hf⟩
      obtain ⟨hl, hsub⟩ := hh.level hg
      obtain ⟨hf, hfsub⟩ := (nested_iff hg).1 hf
      refine .intro hm (hlevel.1 ⟨hl, hf⟩) fun j hj sub hs => ?_
      obtain ⟨i, hi⟩ := List.mem_iff_getElem?.1 hj
      obtain ⟨h, hat, -, henc'⟩ := exists_subgridAt hcells henc hi hs
      exact henc'.placed_iff.1 ⟨hsub i h hat, hfsub h (mem_subgrids_of_subgridAt hat)⟩
    · intro hc
      obtain ⟨hcl, hcsub⟩ := hc.level hm
      obtain ⟨hl, hf⟩ := hlevel.2 hcl
      have hkid : ∀ i h, grid.subgridAt i = some h → WellPlaced ds h := by
        intro i h hat
        obtain ⟨j, sub, hj, -, hs, -, henc'⟩ := (subgridAt_iff hcells henc).1 hat
        exact henc'.placed_iff.2 (hcsub j (List.mem_of_getElem? hj) sub hs)
      refine ⟨.intro hg hl fun i h hat => (hkid i h hat).hierarchy, (nested_iff hg).2 ⟨hf, ?_⟩⟩
      intro h hh
      obtain ⟨i, hat⟩ := exists_subgridAt_of_mem hh
      exact (hkid i h hat).fragments

/-- The call fails and the list of grids is as it was, or it makes a well-formed grid. -/
def Decodes (env : Env V) (json : Json) (ds : Dataset V) : Prop :=
  ∃ ds' o, gridCreateFromString env json ds = .ok (ds', o)
    ∧ (o = none → ds'.grids = ds.grids ∧ ds'.gridCount = ds.gridCount
      ∧ ds'.incompleteGridCount = ds.incompleteGridCount ∧ ds'.gridHeap = ds.gridHeap)
    ∧ ∀ g, o = some g → ds'.dims = ds.dims ∧ WellPlaced ds' g ∧ LooksUp ds' g

/-- A grid of one axis. -/
def axisGrid (bounds : List ℤ) (cells : List Json) : Json :=
  .obj [("axes", .arr [.ints bounds]), ("id", .str "grid"), ("grid", .arr cells)]

/-- The description of a fragment of one element. -/
def elementFragment : Json :=
  .obj [("pid", .str "b"), ("id", .str "fragment"), ("act-size", .int 8),
    ("space", .obj [("size", .ints [1]), ("offset", .ints [0])])]

/-- Two cells: a fragment, and a subgrid of one cell. -/
def pairGrid : Json :=
  axisGrid [0, 1, 2] [.obj [("fragment", elementFragment)],
    .obj [("grid", axisGrid [1, 2] [.obj []])]]

theorem consistent_pairGrid : Consistent pairSpace pairGrid := by
  have hm : gridMembers pairGrid = some ("grid", [⟨2, 0, 2, [0, 1, 2]⟩],
    [.obj [("fragment", elementFragment)], .obj [("grid", axisGrid [1, 2] [.obj []])]]) := rfl
  have hm' : gridMembers (axisGrid [1, 2] [.obj []])
    = some ("grid", [⟨1, 1, 2, [1, 2]⟩], [.obj []]) := rfl
  refine .intro hm ⟨rfl, by decide, ?_, ?_⟩ ?_
  · intro i j sub cube hj hs hcell
    match i with
    | 0 =>
      obtain rfl := Option.some.inj hj
      cases hs
    | 1 =>
      obtain rfl := Option.some.inj hj
      obtain rfl := Option.some.inj hs
      have hcell' : CellAt [⟨2, 0, 2, [0, 1, 2]⟩] 1 [⟨1, 2⟩] :=
        ⟨[1], ⟨⟨by decide, by decide, rfl, rfl⟩, trivial⟩, rfl⟩
      exact ⟨_, _, _, hm', hcell'.eq hcell⟩
    | _ + 2 => cases hj
  · intro i j f d cube hj hf hcell hd
    match i with
    | 0 =>
      obtain rfl := Option.some.inj hj
      obtain rfl := Option.some.inj hf
      obtain rfl := Option.some.inj
        ((rfl : FragmentDescription.parse pairSpace elementFragment = some _).symm.trans hd)
      have hcell' : CellAt [⟨2, 0, 2, [0, 1, 2]⟩] 0 [⟨0, 1⟩] :=
        ⟨[0], ⟨⟨by decide, by decide, rfl, rfl⟩, trivial⟩, rfl⟩
      exact hcell'.eq hcell
    | 1 =>
      obtain rfl := Option.some.inj hj
      cases hf
    | _ + 2 => cases hj
  · intro j hj sub hs
    rcases List.mem_pair.1 hj with rfl | rfl
    · cases hs
    · obtain rfl := Option.some.inj hs
      refine .intro hm' ⟨rfl, by decide, ?_, ?_⟩ ?_
      · intro i j sub cube hj hs
        obtain rfl := List.mem_singleton.1 (List.mem_of_getElem? hj)
        cases hs
      · intro i j f d cube hj hf
        obtain rfl := List.mem_singleton.1 (List.mem_of_getElem? hj)
        cases hf
      · intro j hj sub hs
        obtain rfl := List.mem_singleton.1 hj
        cases hs

end Placed

end Dataset

end Esdm
