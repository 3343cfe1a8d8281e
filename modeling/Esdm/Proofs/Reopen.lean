import Esdm.Proofs.DimNames
import Esdm.Proofs.RoundTrip
import Esdm.Proofs.Tidy
import Esdm.Proofs.Tracking

/-!
# Datasets that are read back

What `esdmI_dataset_metadata_create` writes, `esdm_dataset_open_md_parse` reads.  It finds the
fragments and the grids as they were, but it counts the unlimited dimensions anew from the
fragments, and it drops the names of the dimensions if one of them is not valid.  So a dataset
survives in its text exactly if its names are valid and its actual size is what its fragments reach
(`roundTrips_iff`).
-/

namespace Esdm

variable {V A : Type}

theorem forall₂_trans {α β γ : Type} {R : α → β → Prop} {S : β → γ → Prop} {T : α → γ → Prop}
    (hT : ∀ a b c, R a b → S b c → T a c) {l : List α} {l' : List β} {l'' : List γ}
    (h : List.Forall₂ R l l') (h' : List.Forall₂ S l' l'') : List.Forall₂ T l l'' := by
  induction h generalizing l'' with
  | nil =>
    obtain rfl := List.forall₂_nil_left_iff.1 h'
    exact .nil
  | cons hab _ ih =>
    obtain ⟨c, l₁, hbc, hl, rfl⟩ := List.forall₂_cons_left_iff.1 h'
    exact .cons (hT _ _ c hab hbc) (ih hl)

/-- What is stored about a fragment. -/
def Fragment.record (f : Fragment V) : Option String × Option Backend × Dataspace × ℤ :=
  (f.id, f.backend, f.dataspace, f.actualBytes)

namespace Dataset

variable {env env' : Env V} {ds x y : Dataset V}

section Fragments

/-- What is stored about the fragments of the table. -/
def records (ds : Dataset V) : Set (Option String × Option Backend × Dataspace × ℤ) :=
  {x | ∃ e ∈ ds.table, ∃ f, ds.fragment e.2 = .ok f ∧ f.record = x}

/-- The fragments of the table are stored on backends that are configured, and have the dataset's
rank and type. -/
def Backed (env : Env V) (ds : Dataset V) : Prop :=
  ∀ e ∈ ds.table, ∀ f, ds.fragment e.2 = .ok f → f.dataspace.dims = ds.dims
    ∧ f.dataspace.type = ds.dataspace.type ∧ f.id ≠ none
    ∧ ∃ b, f.backend = some b ∧ getBackend env b.id = some b

theorem Backed.allStored (hs : Backed env ds) (hw : TableWf ds) : AllStored env ds.dims ds := by
  intro e he
  obtain ⟨f, hf, hshape⟩ := hw.fragment_eq he
  obtain ⟨hdims, -, hid, b, hb, hget⟩ := hs e he f hf
  obtain ⟨id, hid⟩ := Option.ne_none_iff_exists'.1 hid
  exact ⟨f, id, b, hf, hshape, hdims, hid, hb, by simp [hget]⟩

/-- What is read of a description has the same record. -/
theorem Backed.record_eq (hs : Backed env' ds) {e : Hypercube × ℕ} (he : e ∈ ds.table)
    {f : Fragment V} (hf : ds.fragment e.2 = .ok f) {json : Json}
    (hjson : f.metadataCreate = .ok json) {space : Dataspace} (hd : space.dims = ds.dims)
    (ht : space.type = ds.dataspace.type) {d : FragmentDescription}
    (hparse : FragmentDescription.parse space json = some d) {b : Backend}
    (hb : getBackend env' d.pid = some b) : (d.fragment env' b).record = f.record := by
  obtain ⟨hdims, htype, -, b', hb', hget⟩ := hs e he f hf
  obtain ⟨id, b'', hid, hb'', hparse'⟩ :=
    Fragment.parse_metadataCreate (hdims.trans hd.symm) hjson
  obtain rfl := Option.some.inj (hb'.symm.trans hb'')
  obtain rfl := Option.some.inj (hparse.symm.trans hparse')
  obtain rfl := Option.some.inj (hb.symm.trans hget)
  unfold Fragment.record FragmentDescription.fragment
  rw [hid, hb', ht, ← htype]

/-- Two datasets that have fragments of the same shapes have the same records if corresponding
fragments do. -/
theorem records_eq (hw : TableWf ds) (hy : TableWf y) (hshapes : ∀ s, s ∈ y.shapes ↔ s ∈ ds.shapes)
    (h : ∀ s r r' f f', (s, r) ∈ ds.table → (s, r') ∈ y.table → ds.fragment r = .ok f →
      y.fragment r' = .ok f' → f'.record = f.record) : y.records = ds.records := by
  ext x
  constructor
  · rintro ⟨⟨s, r'⟩, he', f', hf', rfl⟩
    obtain ⟨r, he⟩ := mem_shapes.1 ((hshapes s).1 (mem_shapes.2 ⟨r', he'⟩))
    obtain ⟨f, hf, -⟩ := hw.fragment_eq he
    exact ⟨(s, r), he, f, hf, (h s r r' f f' he he' hf hf').symm⟩
  · rintro ⟨⟨s, r⟩, he, f, hf, rfl⟩
    obtain ⟨r', he'⟩ := mem_shapes.1 ((hshapes s).2 (mem_shapes.2 ⟨r, he⟩))
    obtain ⟨f', hf', -⟩ := hy.fragment_eq he'
    exact ⟨(s, r'), he', f', hf', h s r r' f f' he he' hf hf'⟩

/-- The records are those of the table. -/
theorem Fixes.records (h : Fixes ds y) : y.records = ds.records := by
  have htable : y.table = ds.table := by rw [h.eq]
  unfold Dataset.records
  simp only [htable, h.fragment]

theorem Appends.fragment (h : Appends x y) {r : ℕ} {f : Fragment V} (hf : x.fragment r = .ok f) :
    y.fragment r = .ok f := by
  obtain ⟨more, hmore, -⟩ := h.fragments
  rw [fragment_eq_ok] at hf ⊢
  rw [hmore, List.getElem?_append_left (List.getElem?_eq_some_iff.1 hf.1).1]
  exact hf

/-- A fragment of a shape that the table has is not one of those that have been added. -/
theorem Appends.getElem?_of_mem (h : Appends x y) {r : ℕ} {f : Fragment V}
    (hf : y.fragment r = .ok f) (hs : f.shape ∈ x.shapes) : x.fragments[r]? = some f := by
  obtain ⟨more, hmore, hfresh⟩ := h.fragments
  have hget := (fragment_eq_ok.1 hf).1
  rw [hmore, List.getElem?_append] at hget
  split_ifs at hget
  · exact hget
  · exact absurd hs (hfresh f (List.mem_of_getElem? hget)).2

theorem Appends.records (h : Appends x y) (hw : TableWf x) : y.records = x.records := by
  have hy : TableWf y := ⟨h.shapes ▸ hw.nodup, fun e he => by
    obtain ⟨f, hf, hs⟩ := hw.fragment_eq (h.table ▸ he)
    obtain ⟨hget, hfreed⟩ := fragment_eq_ok.1 (h.fragment hf)
    exact ⟨f, hget, hfreed, hs⟩⟩
  refine records_eq hw hy (fun s => by rw [h.shapes]) fun s r r' f f' he he' hf hf' => ?_
  obtain ⟨-, rfl⟩ : s = s ∧ r = r' :=
    Prod.mk.inj (List.inj_on_of_nodup_map hw.nodup he (h.table ▸ he') rfl)
  obtain rfl := Except.ok.inj ((h.fragment hf).symm.trans hf')
  rfl

/-- An empty dataset gets the fragments that are described, and its table leads to all of them. -/
theorem openFragments_described (hw : TableWf ds) (hs : Backed env' ds)
    {list : List Json} (hlist : ds.fragmentsMetadataCreate env = .ok list)
    (hfragments : x.fragments = []) (htable : x.table = []) (hd : x.dims = ds.dims)
    (ht : x.dataspace.type = ds.dataspace.type) :
    ∃ y, openFragments env' list x = .ok y ∧ TableWf y ∧ Alike x y
      ∧ (∀ s, s ∈ y.shapes ↔ s ∈ ds.shapes) ∧ y.records = ds.records
      ∧ y.table = (y.fragments.map Fragment.shape).zipIdx := by
  have hx : x.shapes = [] := by rw [shapes, htable, List.map_nil]
  obtain ⟨list', hlist', hwf, hperm⟩ :=
    @fragmentsMetadataCreate_eq_ok V env' ds x.dataspace _ (hs.allStored hw) hd env
  obtain rfl := Except.ok.inj (hlist.symm.trans hlist')
  have hxw : TableWf x := ⟨by simp [hx], by simp [htable]⟩
  obtain ⟨y, hy, hyw, halike, hshapes, new, hnew, htab, hfrom⟩ := absorbFragments_of_nodup
    openFragments_accepts list hxw hwf (by simpa [hx] using hperm.nodup_iff.2 hw.nodup)
  rw [hx, List.nil_append] at hshapes
  rw [hfragments, List.nil_append] at hnew
  rw [hfragments, htable, List.nil_append, List.length_nil] at htab
  have hmem : ∀ s, s ∈ y.shapes ↔ s ∈ ds.shapes := fun s => by rw [hshapes, hperm.mem_iff]
  refine ⟨y, hy, hyw, halike, hmem, ?_, by rw [hnew, htab]⟩
  refine records_eq hw hyw hmem fun s r r' f f' he he' hf hf' => ?_
  obtain ⟨json, hjson, d, b, hparse, hb, rfl⟩ :=
    hfrom f' (hnew ▸ List.mem_of_getElem? (fragment_eq_ok.1 hf').1)
  obtain ⟨i, hi⟩ := List.mem_iff_getElem?.1 hjson
  obtain ⟨e, hei, f₂, hf₂, hmeta⟩ :=
    exists_of_forall₂ (describe_eq_ok_iff.1 hlist).flip hi
  have he₂ : e ∈ ds.table := (env.order_perm ds.table).mem_iff.1 (List.mem_of_getElem? hei)
  have hrecord := hs.record_eq he₂ hf₂ hmeta hd ht hparse hb
  obtain ⟨f₁, hf₁, hshape₁⟩ := hyw.fragment_eq he'
  obtain rfl := Except.ok.inj (hf'.symm.trans hf₁)
  obtain ⟨f₃, hf₃, hshape₃⟩ := hw.fragment_eq he₂
  obtain rfl := Except.ok.inj (hf₂.symm.trans hf₃)
  have hshape : f₂.shape = s :=
    (congrArg (fun x => x.2.2.1.getExtends) hrecord).symm.trans hshape₁
  obtain rfl : (s, r) = e := List.inj_on_of_nodup_map hw.nodup he he₂ (hshape.symm.trans hshape₃)
  obtain rfl := Except.ok.inj (hf.symm.trans hf₂)
  exact hrecord

end Fragments

section Grids

theorem Agrees.of_eq {b : ℕ} (hheap : y.gridHeap = x.gridHeap) (hf : y.fragments = x.fragments) :
    Agrees b x y :=
  ⟨fun k sub _ hk => hheap ▸ hk, fun r f hr => by
    rw [fragment_eq_ok] at hr ⊢
    exact ⟨hf ▸ hr.1, hr.2⟩⟩

/-- In a list without incomplete grids, a complete one comes last. -/
theorem registerCreated_of_complete (hlen : x.grids.length = x.gridCount)
    (hnone : x.incompleteGridCount = 0) (g : ℕ) : registerCreated none x (some (g, 0))
      = .ok ({ x with grids := x.grids ++ [g], gridCount := x.gridCount + 1 }, some g) := by
  have hdrop : (x.grids ++ [g]).drop x.gridCount = [g] := by rw [← hlen, List.drop_left]
  have hget : (x.grids ++ [g])[x.gridCount]? = some g := by rw [← hlen]; simp
  have hset : (x.grids ++ [g]).set x.gridCount g = x.grids ++ [g] := by rw [← hlen]; simp
  simp [registerCreated, registerGrid, registerGridCompletion, hdrop, hget, hset, hnone,
    eassert_of trivial]

/-- Whatever is made of the text, all cells of the grid have an entry. -/
def Full (space : Dataspace) (json : Json) : Prop :=
  ∀ (z : Dataset V) (n g : ℕ) (grid : Grid), Encodes space z n json g →
    z.gridHeap[g]? = some grid → grid.emptyCells = 0

theorem openGrids_of_full : ∀ {list : List Json} {x : Dataset V}, TableWf x →
    x.grids.length = x.gridCount → x.incompleteGridCount = 0 →
    (∀ json ∈ list, Acceptable env x.dataspace x.shapes (json.depth + 1) json
      ∧ Full (V := V) x.dataspace json) →
    ∃ y gs, openGrids env x.gridCount list x = .ok (y, true) ∧ y.grids = x.grids ++ gs
      ∧ y.gridCount = x.gridCount + gs.length ∧ Agrees 0 x y
      ∧ ∀ z, Agrees 0 y z →
        List.Forall₂ (fun json g => Encodes x.dataspace z (json.depth + 1) json g) list gs
  | [], x, _, _, _, _ => ⟨x, [], rfl, by simp, rfl, .of_eq rfl rfl, fun _ _ => .nil⟩
  | json :: list, x, hw, hlen, hnone, hall => by
    obtain ⟨⟨hacc, hfull⟩, hrest⟩ := List.forall_mem_cons.1 hall
    obtain ⟨y₁, o, heq, hbuilds, hcount⟩ :=
      @gridCreateFromJson_spec V x env (json.depth + 1) json none (Nat.lt_succ_self _) hw
    have ho : o.map Prod.fst ≠ none := hbuilds.accepts.2 hacc
    obtain ⟨⟨g, e⟩, rfl⟩ : ∃ c, o = some c :=
      Option.ne_none_iff_exists'.1 fun h => ho (by rw [h, Option.map_none])
    obtain ⟨grid, hg, he⟩ := hcount g e rfl
    obtain rfl : e = 0 := by
      have := hfull y₁ _ g grid (hbuilds.encodes g rfl y₁ (.of_eq rfl rfl)) hg
      omega
    have hgrids : y₁.grids = x.grids := by rw [hbuilds.grown.eq]
    have hgc : y₁.gridCount = x.gridCount := by rw [hbuilds.grown.eq]
    have hinc : y₁.incompleteGridCount = 0 := by rw [hbuilds.grown.eq, hnone]
    rw [registerCreated_of_complete (by rw [hgrids, hgc, hlen]) hinc, hgrids, hgc] at heq
    generalize hy₂ : ({ y₁ with
      grids := x.grids ++ [g]
      gridCount := x.gridCount + 1 } : Dataset V) = y₂ at heq
    have hset : { y₂ with grids := y₂.grids.set x.gridCount g } = y₂ := by
      subst hy₂
      simp [← hlen]
    have hspace : y₂.dataspace = x.dataspace := by
      subst hy₂
      exact hbuilds.grown.dataspace
    have hshapes : y₂.shapes = x.shapes := by
      subst hy₂
      exact hbuilds.grown.shapes
    have hagrees : ∀ b, Agrees b y₁ y₂ := fun b => by
      subst hy₂
      exact .of_eq rfl rfl
    obtain ⟨y, gs, hy, hygrids, hycount, hyagrees, hencodes⟩ :=
      @openGrids_of_full list y₂ (by subst hy₂; exact (hbuilds.grown.tableWf hw).congr rfl rfl)
        (by subst hy₂; simp [hlen]) (by subst hy₂; exact hinc) (by rwa [hspace, hshapes])
    refine ⟨y, g :: gs, ?_, ?_, ?_, ?_, fun z hz => .cons ?_ ?_⟩
    · rw [openGrids, gridCreateFromString, heq, Outcome.ok_bind]
      dsimp only
      rw [hset]
      subst hy₂
      exact hy
    · rw [hygrids, ← hy₂, List.append_assoc]
      rfl
    · rw [hycount, ← hy₂, List.length_cons]
      dsimp only
      omega
    · exact ((hbuilds.grown.agrees 0).trans (hagrees 0)).trans hyagrees
    · exact hbuilds.encodes g rfl z ((hagrees _).trans ((hyagrees.trans hz).mono (Nat.zero_le _)))
    · exact hspace ▸ hencodes z hz

/-- The cells of all grids have fragments that are stored. -/
theorem Backed.cellsKnown (hs : Backed env ds) (hw : TableWf ds)
    (hG : Grid.Geometry ds.table ds.gridHeap) (g : ℕ) :
    Grid.Nested (CellsKnown env ds) ds.gridHeap g := by
  intro k grid _ hk cs c r hcs hc hr
  obtain ⟨i, hi⟩ := List.mem_iff_getElem?.1 hc
  obtain ⟨-, index, cube, -, -, hmem⟩ := (hG.cells k grid cs i c hk hcs hi).fragment r hr
  obtain ⟨f, id, b, hf, -, -, hid, hb, hget⟩ := hs.allStored hw _ hmem
  exact ⟨f, id, b, hf, hid, hb, hget⟩

/-- The complete grids survive in their texts. -/
theorem settled_of_complete (hI : Inv ds) (hG : Grid.Geometry ds.table ds.gridHeap) {g : ℕ}
    (hg : g ∈ ds.grids.take ds.gridCount) :
    ∃ grid, ds.gridHeap[g]? = some grid ∧ grid.done = true ∧ Settled ds.gridHeap g := by
  have hF := hI.grids.forest
  have hmem := List.mem_of_mem_take hg
  obtain ⟨grid, hgrid⟩ : ∃ grid, ds.gridHeap[g]? = some grid :=
    ⟨_, List.getElem?_eq_getElem (hI.grids.listed.valid g hmem)⟩
  have hdone := (hI.grids.listed.complete hgrid hmem).1 hg
  have hnested := hF.nested_done ds.gridHeap.length g (Nat.sub_le _ _) hgrid hdone
  refine ⟨grid, hgrid, hdone, fun k sub hk hsub axis ha => ?_, fun k sub hk hsub => ?_⟩
  · have hp := hG.proper_of_done hF ds.gridHeap.length k (Nat.sub_le _ _) hsub
      (hnested k sub hk hsub) axis ha
    exact ⟨hp.intervals, hp.length, hp.head, hp.last⟩
  · obtain ⟨cs, hcs, -, hzero⟩ := Grid.done_iff.1 (hnested k sub hk.to_reflTransGen hsub)
    exact ⟨by simp [hcs], hzero⟩

/-- Grids can be written down one after another if each of them can. -/
theorem serializeGrids_eq_ok {dims : ℕ} (hF : Grid.Forest dims none ds.gridHeap) :
    ∀ {grids : List ℕ} {ds₁ : Dataset V}, Fixes ds ds₁ → (∀ g ∈ grids, ∃ grid,
      ds.gridHeap[g]? = some grid ∧ Grid.Nested (Serializable ds) ds.gridHeap g) →
    ∃ r, serializeGrids env grids ds₁ = .ok r
  | [], ds₁, _, _ => ⟨_, rfl⟩
  | g :: grids, ds₁, hfix, hall => by
    obtain ⟨⟨grid, hg, hser⟩, hrest⟩ := List.forall_mem_cons.1 hall
    have hfull : CellsFull ds := fun k sub cs hk => (hF.node hk).length cs
    obtain ⟨⟨ds₂, json⟩, h⟩ := @gridSerialize_eq_ok V ds env dims hF ds₁.gridHeap.length g grid ds₁
      (by rw [hfix.length]; omega) hg hser hfix
    obtain ⟨hfix₂, -⟩ := gridSerialize_describes (hfull.fixes hfix) h
    obtain ⟨⟨ds₃, rest⟩, h'⟩ := serializeGrids_eq_ok hF (hfix.trans hfix₂) hrest
    refine ⟨(ds₃, json :: rest), ?_⟩
    rw [serializeGrids, h, Outcome.ok_bind]
    dsimp only
    rw [h']
    rfl

theorem exists_metadataCreate (hI : Inv ds) (hG : Grid.Geometry ds.table ds.gridHeap)
    (hs : Backed env' ds) : ∃ y md, ds.metadataCreate env = .ok (y, md) := by
  obtain ⟨list, hlist, -⟩ := @fragmentsMetadataCreate_eq_ok V env' ds ds.dataspace _
    (hs.allStored hI.table) rfl env
  obtain ⟨⟨y, grids⟩, h⟩ := @serializeGrids_eq_ok V env ds _ hI.grids.forest
    (ds.grids.take ds.gridCount) ds (.refl ds) fun g hg => by
    obtain ⟨grid, hgrid, -, hsettled⟩ := settled_of_complete hI hG hg
    refine ⟨grid, hgrid, fun k sub hk hsub => ⟨?_, fun cs c r hcs hc hr => ?_⟩⟩
    · exact (Grid.cellCount_pos fun a ha => (hsettled.axes k sub hk hsub a ha).intervals).le
    · obtain ⟨f, id, b, hf, hid, hb, -⟩ :=
        hs.cellsKnown hI.table hG g k sub hk hsub cs c r hcs hc hr
      exact ⟨f, id, b, hf, hid, hb⟩
  exact ⟨y, ⟨list, grids⟩, metadataCreate_eq_ok.2 ⟨hlist, h⟩⟩

section Described

variable {md : Metadata} (hI : Inv ds) (hG : Grid.Geometry ds.table ds.gridHeap)
  (hs : Backed env' ds) (hmd : ds.metadataCreate env = .ok (y, md))

include hI hG hs hmd

/-- What comes of the texts of the complete grids. -/
theorem metadataCreate_grids {space : Dataspace} (hd : space.dims = ds.dims)
    (shapes : List Hypercube) :
    List.Forall₂ (fun g json => (Acceptable env' space shapes (json.depth + 1) json
        ∧ Full (V := V) space json) ∧ ∀ (z : Dataset V) (n g' : ℕ), Encodes space z n json g' →
          Mirrors SameGrid (SameShape y z) y z y.gridHeap.length g g')
      (y.grids.take y.gridCount) md.grids := by
  have hF := hI.grids.forest
  have hIy : Inv y := ((metadataCreate_steps hmd).steps.inv (fun _ h => h.elim) hI).1
  obtain ⟨hfix, hdesc⟩ := serializeGrids_describes hI.cellsFull (metadataCreate_eq_ok.1 hmd).2
  have hgrids : y.grids.take y.gridCount = ds.grids.take ds.gridCount := by rw [hfix.eq]
  rw [hgrids, hfix.length]
  have hmem : List.Forall₂ (fun g json => g ∈ ds.grids.take ds.gridCount
      ∧ Describes y ds.gridHeap.length g json) (ds.grids.take ds.gridCount) md.grids :=
    (List.forall₂_and_left _ _).2 ⟨fun _ h => h, hdesc⟩
  refine hmem.imp fun g json => ?_
  rintro ⟨hg, hdesc⟩
  obtain ⟨grid, hgrid, hdone, hsettled⟩ := settled_of_complete hI hG hg
  have hret : Grid.Nested Returns y.gridHeap g :=
    (hfix.returns_iff hF hIy.grids.forest hdesc.allocated).2 hsettled
  have hread : Grid.Nested (CellsReadable env' space.dims y) y.gridHeap g :=
    hd ▸ hfix.cellsReadable hI hG (hs.cellsKnown hI.table hG g)
  have hmirrors : ∀ (z : Dataset V) (n g' : ℕ), Encodes space z n json g' →
      Mirrors Decoded (SameShape y z) y z ds.gridHeap.length g g' :=
    fun z n g' henc => hdesc.mirrors henc hread
  refine ⟨⟨hdesc.acceptable (hI.cellsFull.fixes hfix) (Nat.lt_succ_self _)
    (fun k sub hk hsub => (hret k sub hk hsub).1) hread, ?_⟩, ?_⟩
  · intro z n g' grid' henc hgrid'
    obtain ⟨grid₁, grid₁', hg₁, hg₁', -, -, cs, hcs, he'⟩ := (hmirrors z n g' henc).root
    obtain rfl := Option.some.inj (hgrid'.symm.trans hg₁')
    obtain ⟨-, cs', hcs', he⟩ := hret g grid₁ .refl hg₁
    obtain rfl := Option.some.inj (hcs.symm.trans hcs')
    have hdone₁ : grid₁.done = true := by
      have := hfix.any_done g
      rw [hg₁, hgrid] at this
      exact this.trans hdone
    obtain ⟨-, -, -, hzero⟩ := Grid.done_iff.1 hdone₁
    rw [he', ← he, hzero]
  · intro z n g' henc
    exact ((hmirrors z n g' henc).iff fun _ _ h => h.same_iff).2 hret

end Described

section Bound

/-- Each leaf cell of the grid that is filled has the table's fragment of the cell's shape. -/
def BoundTo (table : List (Hypercube × ℕ)) (grid : Grid) : Prop :=
  ∀ i r cube, grid.fragmentAt i = some r → Grid.CellAt grid.axes i cube → (cube, r) ∈ table

/-- A grid that is nested in a copy is the copy of a grid that is nested in the original. -/
theorem Mirrors.nested {R : Grid → Grid → Prop} {L : Option ℕ → Option ℕ → Prop} {g' h' : ℕ}
    (hreach : Relation.ReflTransGen (Grid.Subgrid y.gridHeap) g' h') : ∀ {n g : ℕ},
    Mirrors R L x y n g g' → ∃ m h, Relation.ReflTransGen (Grid.Subgrid x.gridHeap) g h
      ∧ Mirrors R L x y m h h' := by
  induction hreach using Relation.ReflTransGen.head_induction_on with
  | refl => exact fun hm => ⟨_, _, .refl, hm⟩
  | @head a c hac _ ih =>
    intro n g hm
    obtain _ | n := n
    · exact hm.elim
    obtain ⟨grid, grid', cs, cs', hg, hg', hcs, hcs', -, hcells⟩ := hm
    obtain ⟨grid₁, hg₁, hc⟩ := hac
    obtain rfl := Option.some.inj (hg'.symm.trans hg₁)
    obtain ⟨cs₁, hcs₁, e', he', hsub⟩ := Grid.mem_subgrids.1 hc
    obtain rfl := Option.some.inj (hcs'.symm.trans hcs₁)
    obtain ⟨i, hi⟩ := List.mem_iff_getElem?.1 he'
    obtain ⟨e, he, hcell⟩ := exists_of_forall₂ hcells.flip hi
    obtain ⟨-, hnone, -⟩ | ⟨k, k', rfl, rfl, hk⟩ := hcell
    · simp [hnone] at hsub
    obtain rfl := Option.some.inj hsub
    obtain ⟨m, h, hreach, hm⟩ := ih hk
    refine ⟨m, h, .head ⟨grid, hg, ?_⟩ hreach, hm⟩
    exact Grid.mem_subgrids.2 ⟨cs, hcs, _, List.mem_of_getElem? he, rfl⟩

/-- The cells of a copy have the table's fragments if the originals have. -/
theorem Mirrors.boundTo {n g g' : ℕ} (hm : Mirrors SameGrid (SameShape x y) x y n g g')
    (hw : TableWf x) (hG : Grid.Geometry x.table x.gridHeap)
    (hy : ∀ r f, y.fragment r = .ok f → f.shape ∈ x.shapes → (f.shape, r) ∈ y.table) :
    Grid.Nested (BoundTo y.table) y.gridHeap g' := by
  intro h' grid' hreach hgrid' i r' cube hr' hcell
  obtain ⟨m, h, -, hm⟩ := hm.nested hreach
  obtain _ | m := m
  · exact hm.elim
  obtain ⟨grid, grid₁, cs, cs', hg, hg', hcs, hcs', hsame, hcells⟩ := hm
  obtain rfl := Option.some.inj (hg'.symm.trans hgrid')
  obtain ⟨c', hi', hc'⟩ : ∃ c', cs'[i]? = some c' ∧ c'.fragment = some r' := by
    simpa [Grid.fragmentAt, hcs', Option.bind_eq_some_iff] using hr'
  obtain ⟨c, hi, hmc⟩ := exists_of_forall₂ hcells.flip hi'
  obtain ⟨-, -, hshape⟩ | ⟨k, k', -, rfl, -⟩ := hmc
  · rw [hc'] at hshape
    rcases hr : c.fragment with _ | r
    · rw [hr] at hshape
      exact hshape.elim
    rw [hr] at hshape
    obtain ⟨f, f', hf, hf', hff'⟩ := hshape
    obtain ⟨-, index, cube', hindex, hcell', hmem⟩ :=
      (hG.cells h grid cs i c hg hcs hi).fragment r hr
    obtain rfl : cube' = cube := by
      have hat : Grid.CellAt grid₁.axes i cube' := hsame.axes ▸ ⟨index, hcell', hindex⟩
      exact hat.eq hcell
    obtain ⟨f₁, hf₁, hshape₁⟩ := hw.fragment_eq hmem
    obtain rfl := Except.ok.inj (hf.symm.trans hf₁)
    have hs : f'.shape = cube' := hff'.trans hshape₁
    exact hs ▸ hy r' f' hf' (hs ▸ mem_shapes.2 ⟨r, hmem⟩)
  · cases hc'

end Bound

end Grids

end Dataset

namespace DatasetObject

open Dataset (Backed BoundTo Fixes Inv Mirrors SameGrid SameShape SizeExact pairGridCalls)

variable {env env' : Env V} {d x : DatasetObject V A} {md : Metadata}

section Header

/-- What the description of a dataset says, apart from what the metadata library writes. -/
def members (d : DatasetObject V A) (md : Metadata) : Json :=
  .obj ([("id", .str d.id), ("dims", .int d.dims)]
    ++ (if d.dims = 0 then [] else [("size", .ints (d.dataspace.dim.map Dim.size))])
    ++ (d.dimNames.map fun names => ("dims_dset_id", Json.arr (names.map .str))).toList
    ++ [("fragments", .arr md.fragments), ("grids", .arr md.grids)])

/-- There is a name for each dimension, if there are names. -/
def NamesMatch (d : DatasetObject V A) : Prop :=
  ∀ names, d.dimNames = some names → names.length = d.dims

theorem metadataCreate_of_namesMatch (hn : NamesMatch d) {attr : List (String × A)}
    (hattr : d.attr = some attr) {y : Dataset V}
    (h : d.toDataset.metadataCreate env = .ok (y, md)) :
    d.metadataCreate env = .ok ({ d with toDataset := y },
      ⟨attr, d.fillValue, d.dataspace.type, d.members md⟩) := by
  refine metadataCreate_eq_ok.2 ⟨attr, _, y, md, hattr, ?_, h, rfl, rfl⟩
  rcases hnames : d.dimNames with _ | names
  · unfold header
    rw [hnames]
    simp
  · refine (header_eq_ok hnames).2 ⟨names, ?_, by simp⟩
    rw [List.forall₂_iff_get]
    refine ⟨by simp [hn names hnames], fun i h₁ h₂ => ?_⟩
    simp

theorem nameDims_map_some {names : List String} (hlen : names.length = x.dims) :
    x.nameDims (names.map some) = .ok (if ∀ name ∈ names, isValidDatasetName name
      then (.success, { x with dimNames := some names, status := .dirty }) else (.error, x)) := by
  have hread : ((List.range x.dims).map fun i => (names.map some)[i]?.join) = names.map some := by
    refine List.ext_getElem (by simp [hlen]) fun i h₁ h₂ => ?_
    simp only [List.length_map] at h₂
    simp [List.getElem?_eq_getElem h₂]
  unfold nameDims
  rw [hread, validNames_map_some, Outcome.ok_bind]
  split_ifs
  · rfl
  · rfl

/-- A name that is refused is in the array all the same. -/
theorem renameDim_of_invalid {names : List String} {name : String} {i : ℕ} (hi : i < x.dims)
    (hn : x.dimNames = some names) (hlen : names.length = x.dims)
    (hname : ¬ ∀ n ∈ names.set i name, isValidDatasetName n) :
    x.renameDim name i = .ok (.error, { x with dimNames := some (names.set i name) }) := by
  unfold renameDim
  rw [eassert_of hi, Outcome.ok_bind, hn, access_some, Outcome.ok_bind,
    nameDims_map_some (by rw [List.length_set]; exact hlen), if_neg hname]

theorem parseSizes_members : parseSizes (d.members md) d.dims
    = .ok (some (d.dataspace.dim.map Dim.size)) := by
  have hnot : ¬ (d.dims : ℤ) < 0 := by omega
  by_cases hz : d.dims = 0
  · have hdim : d.dataspace.dim = [] := List.length_eq_zero_iff.1 hz
    have hget : (d.members md).get "size" = none := by
      rcases hn : d.dimNames with _ | names <;> simp [members, hz, hn]
    simp [parseSizes, hget, hz, hdim]
  · have hget : (d.members md).get "size" = some (.ints (d.dataspace.dim.map Dim.size)) := by
      simp [members, hz]
    have hlen : d.dims = d.dataspace.dim.length := rfl
    rw [parseSizes, if_neg hnot, hget]
    simp [Json.ints, hlen, Function.comp_def]

theorem members_get_fragments : (d.members md).get "fragments" = some (.arr md.fragments) := by
  by_cases hz : d.dims = 0 <;> rcases hn : d.dimNames with _ | names <;> simp [members, hz, hn]

theorem members_get_grids : (d.members md).get "grids" = some (.arr md.grids) := by
  by_cases hz : d.dims = 0 <;> rcases hn : d.dimNames with _ | names <;> simp [members, hz, hn]

/-- The names of the dimensions, unless one of them is not valid. -/
def validDimNames (d : DatasetObject V A) : Option (List String) :=
  d.dimNames.filter fun names => ∀ name ∈ names, isValidDatasetName name

theorem described_unloaded (hoffset : ∀ i ∈ d.dataspace.dim, i.offset = 0)
    (attr : List (String × A)) (id : String) :
    ((unloaded id).described ⟨attr, d.fillValue, d.dataspace.type, d.members md⟩ d.id
        (d.dataspace.dim.map Dim.size)).toDataset
      = { Dataset.init (.createFull d.dataspace.dim d.dataspace.type) d.fillValue with
        status := .notLoaded } := by
  have hdim : (d.dataspace.dim.map Dim.size).map (fun size => (⟨0, size⟩ : Dim))
      = d.dataspace.dim := by
    refine (List.map_map ..).trans (List.map_congr_left fun i hi => ?_) |>.trans (List.map_id _)
    rw [Function.comp_apply, ← hoffset i hi]
    rfl
  have hfill : (d.fillValue <|> (unloaded id : DatasetObject V A).fillValue) = d.fillValue := by
    rcases d.fillValue with _ | value <;> rfl
  have hsize : (if 0 ∈ d.dataspace.dim.map Dim.size then some (d.dataspace.dim.map Dim.size)
      else (unloaded id : DatasetObject V A).actualSize)
      = (Dataset.init (.createFull d.dataspace.dim d.dataspace.type) d.fillValue).actualSize :=
    if_congr List.mem_map rfl rfl
  unfold described
  dsimp only
  rw [hdim, hfill, hsize]
  rfl

theorem openNamed_of_none {members : Json} {dims : ℤ} (h : members.get "dims_dset_id" = none) :
    openNamed env x members dims = openContents env x members false := by
  unfold openNamed
  rw [h]
  rfl

theorem openNamed_of_names {members : Json} {names : List String}
    (h : members.get "dims_dset_id" = some (.arr (names.map .str))) (hlen : names.length = x.dims) :
    openNamed env x members x.dims = if ∀ name ∈ names, isValidDatasetName name
      then openContents env { x with dimNames := some names, status := .dirty } members true
      else openContents env x members false := by
  have hstr : (names.map Json.str).map Json.str? = names.map some := by simp [Function.comp_def]
  have heq : openNamed env x members x.dims = x.nameDims (names.map some) >>= fun r =>
      openContents env r.2 members (decide (r.1 = .success)) := by
    rw [← hstr]
    unfold openNamed
    rw [h]
    exact (if_neg (by simp [hlen])).trans (if_pos rfl)
  rw [heq, nameDims_map_some hlen, Outcome.ok_bind]
  split_ifs
  · rfl
  · rfl

/-- What a dataset is made of that its description is read into, before the fragments and the grids
are read. -/
theorem openMdParse_members (hn : NamesMatch d) (hoffset : ∀ i ∈ d.dataspace.dim, i.offset = 0)
    (attr : List (String × A)) (id : String) : ∃ x named,
      (unloaded id).openMdParse env' ⟨attr, d.fillValue, d.dataspace.type, d.members md⟩
        = openContents env' x (d.members md) named
      ∧ x.toDataset = { Dataset.init (.createFull d.dataspace.dim d.dataspace.type) d.fillValue with
        status := x.status }
      ∧ x.id = d.id ∧ x.dimNames = d.validDimNames := by
  have hid : ((d.members md).get "id" >>= Json.str?) = some d.id := by simp [members]
  have hdims : ((d.members md).get "dims" >>= Json.int?).getD 0 = d.dims := by simp [members]
  have hnames : (d.members md).get "dims_dset_id"
      = d.dimNames.map fun names => .arr (names.map .str) := by
    by_cases hz : d.dims = 0 <;> rcases hnames : d.dimNames with _ | names <;>
      simp [members, hz, hnames]
  rw [openMdParse_of_sizes hid hdims parseSizes_members]
  have hx := @described_unloaded V A d md hoffset attr id
  generalize hd : (unloaded id).described ⟨attr, d.fillValue, d.dataspace.type, d.members md⟩ d.id
    (d.dataspace.dim.map Dim.size) = x at hx
  have hxid : x.id = d.id := hd ▸ rfl
  have hxnames : x.dimNames = none := hd ▸ rfl
  have hxdims : x.dims = d.dims := by
    rw [hx]
    rfl
  clear hd
  unfold validDimNames
  rcases hnone : d.dimNames with _ | names
  · refine ⟨x, false, openNamed_of_none (by rw [hnames, hnone]; rfl), by rw [hx], hxid, hxnames⟩
  have hget : (d.members md).get "dims_dset_id" = some (.arr (names.map .str)) := by
    rw [hnames, hnone]
    rfl
  rw [← hxdims, openNamed_of_names hget ((hn names hnone).trans hxdims.symm)]
  split_ifs with hv
  · refine ⟨_, true, rfl, by rw [hx], hxid, ?_⟩
    rw [Option.filter_some, if_pos (by simpa using hv)]
  · refine ⟨x, false, rfl, by rw [hx], hxid, ?_⟩
    rw [hxnames, Option.filter_some, if_neg (by simpa using hv)]

end Header

section Contents

/-- A loaded dataset whose fragments are all stored. -/
structure Storable (env : Env V) (d : DatasetObject V A) : Prop where
  inv : Inv d.toDataset
  geometry : Grid.Geometry d.table d.gridHeap
  loaded : d.attr ≠ none
  offset : ∀ i ∈ d.dataspace.dim, i.offset = 0
  names : NamesMatch d
  stored : Backed env d.toDataset

/-- Another dataset is like this one, but for the names of the dimensions and the actual size. -/
structure SameContents (d d' : DatasetObject V A) : Prop where
  id : d'.id = d.id
  dim : d'.dataspace.dim = d.dataspace.dim
  records : d'.records = d.records
  grids : List.Forall₂ (Mirrors SameGrid (SameShape d.toDataset d'.toDataset) d.toDataset
    d'.toDataset d.gridHeap.length) (d.grids.take d.gridCount) (d'.grids.take d'.gridCount)
  bound : ∀ g ∈ d'.grids.take d'.gridCount,
    Grid.Nested (BoundTo d'.table) d'.gridHeap g

theorem openContents_of_ok {members : Json} {fragments grids : List Json} {named : Bool}
    {y z : Dataset V} (hfragments : members.get "fragments" = some (.arr fragments))
    (hgrids : members.get "grids" = some (.arr grids))
    (hy : Dataset.openFragments env fragments x.toDataset = .ok y)
    (hz : Dataset.openGrids env 0 grids
      { y with grids := [], gridCount := 0, incompleteGridCount := 0 } = .ok (z, true)) :
    openContents env x members named
      = .ok (.success, { x with toDataset := { z with status := .persistent } }, named) := by
  have hy' : Dataset.openFragments env ((Json.arr fragments).elements?.getD []) x.toDataset
      = .ok y := hy
  unfold openContents
  rw [hfragments]
  dsimp only
  rw [hy', Outcome.ok_bind, hgrids]
  dsimp only [Option.bind_eq_bind, Option.bind_some, Json.elements?_arr]
  rw [hz, Outcome.ok_bind]
  rfl

/-- A dataset can always be written down and read. -/
theorem reopens (h : Storable env' d) (env : Env V) (id : String) : ∃ y description d' named,
    d.metadataCreate env = .ok ({ d with toDataset := y }, description) ∧ Fixes d.toDataset y
      ∧ (unloaded id).openMdParse env' description = .ok (.success, d', named)
      ∧ SameContents { d with toDataset := y } d' ∧ d'.dimNames = d.validDimNames
      ∧ (∀ s, s ∈ d'.shapes ↔ s ∈ d.shapes) ∧ d'.status = .persistent := by
  obtain ⟨attr, hattr⟩ := Option.ne_none_iff_exists'.1 h.loaded
  obtain ⟨y, md, hmd⟩ := @Dataset.exists_metadataCreate V env env' _ h.inv h.geometry h.stored
  obtain ⟨hlist, -⟩ := Dataset.metadataCreate_eq_ok.1 hmd
  obtain ⟨x, named, hparse, hx, hid, hnames⟩ :=
    @openMdParse_members V A env' d md h.names h.offset attr id
  have hfix := Dataset.metadataCreate_fixes h.inv hmd
  have hxdims : x.dims = d.dims := by
    rw [hx]
    rfl
  obtain ⟨w, hw, hwtable, halike, hshapes, hrecords, htab⟩ := @Dataset.openFragments_described V env
    env' d.toDataset x.toDataset h.inv.table h.stored md.fragments hlist (by rw [hx]; rfl)
    (by rw [hx]; rfl) hxdims (by rw [hx]; rfl)
  have hgrids := @Dataset.metadataCreate_grids V env env' d.toDataset y md h.inv h.geometry h.stored
    hmd w.dataspace (by rw [halike.dataspace]; exact hxdims) w.shapes
  obtain ⟨z, gs, hz, hzgrids, hzcount, hagrees, henc⟩ := @Dataset.openGrids_of_full V env' md.grids
    { w with grids := [], gridCount := 0, incompleteGridCount := 0 } (hwtable.congr rfl rfl) rfl rfl
    fun json hjson => by
      obtain ⟨i, hi⟩ := List.mem_iff_getElem?.1 hjson
      obtain ⟨g, -, hg, -⟩ := exists_of_forall₂ hgrids.flip hi
      exact hg
  have happends := Dataset.openGrids_appends hz
  have htake : z.grids.take z.gridCount = gs := by
    rw [hzgrids, hzcount]
    simp
  generalize hz' : ({ z with status := .persistent } : Dataset V) = z'
  have hagrees' : Dataset.Agrees 0 z z' := hz' ▸ .of_eq rfl rfl
  have hmirrors : List.Forall₂ (Mirrors SameGrid (SameShape y z') y z' y.gridHeap.length)
      (y.grids.take y.gridCount) gs :=
    forall₂_trans (fun g json g' hg henc => hg.2 z' _ g' henc) hgrids (henc z' hagrees')
  have hydata : y.dataspace = d.dataspace := by rw [hfix.eq]
  have hyshapes : y.shapes = d.shapes := by rw [hfix.eq]; rfl
  have hzappends : Dataset.Appends w z' := by
    have hcleared : Dataset.Appends w
        { w with grids := [], gridCount := 0, incompleteGridCount := 0 } :=
      .of_fragments rfl rfl rfl rfl
    have hpersistent : Dataset.Appends z z' := hz' ▸ .of_fragments rfl rfl rfl rfl
    exact (hcleared.trans happends).trans hpersistent
  have hzgrids' : z'.grids.take z'.gridCount = gs := by
    rw [← hz']
    exact htake
  have hspace : w.dataspace = .createFull d.dataspace.dim d.dataspace.type := by
    rw [halike.dataspace, hx]
    rfl
  refine ⟨y, _, { x with toDataset := z' }, named, metadataCreate_of_namesMatch h.names hattr hmd,
    hfix, ?_, ⟨hid, ?_, ?_, ?_, ?_⟩, hnames, ?_, ?_⟩
  · rw [hparse, openContents_of_ok members_get_fragments members_get_grids hw hz, hz']
  · rw [hzappends.dataspace, hspace, hydata]
    rfl
  · exact (hzappends.records hwtable).trans (hrecords.trans hfix.records.symm)
  · exact hzgrids'.symm ▸ hmirrors
  · intro g' hg'
    obtain ⟨i, hi⟩ := List.mem_iff_getElem?.1 (show g' ∈ gs from hzgrids' ▸ hg')
    obtain ⟨g, -, hm⟩ := exists_of_forall₂ hmirrors.flip hi
    have hsteps := (Dataset.metadataCreate_steps hmd).steps
    refine hm.boundTo (hsteps.inv nofun h.inv).1.table
      (hsteps.geometry nofun nofun h.inv h.geometry) fun r f hf hs => ?_
    rw [hzappends.table, htab]
    exact List.mem_zipIdx_iff_getElem?.2 (by
      rw [List.getElem?_map, hzappends.getElem?_of_mem hf ((hshapes _).2 (hyshapes ▸ hs))]
      rfl)
  · intro s
    rw [hzappends.shapes]
    exact hshapes s
  · rw [← hz']

end Contents

section Sizes

theorem reach_congr {shapes shapes' : List Hypercube} (h : ∀ s, s ∈ shapes ↔ s ∈ shapes') (i : ℕ) :
    reach shapes i = reach shapes' i := by
  refine eq_of_forall_ge_iff fun n => ?_
  rw [reach_le_iff, reach_le_iff]
  simp only [h]

/-- A dataset that is opened for the first time counts what it reads. -/
theorem unloaded_sizeExact {id : String} {description : Description V A} {status : Status}
    {d' : DatasetObject V A} {named : Bool}
    (h : (unloaded id).openMdParse env description = .ok (status, d', named))
    (hloaded : d'.status ≠ .notLoaded) : SizeExact d'.toDataset := by
  have hkeeps := @Session.openMdParse_keeps V A env status "" (unloaded id) d' description .success
    named (fun e he => by cases he) rfl h
  refine (hkeeps.exact_iff hloaded).2 fun _ => ⟨fun i x _ _ => ?_, fun _ => ?_⟩
  · exact Dataset.reach_nonneg _ i
  · have hnone : (unloaded id : DatasetObject V A).actualSize = none := rfl
    rw [hnone, Option.getD_none]
    exact List.take_of_length_le (List.length_map _).le

end Sizes

section RoundTrip

/-- Another dataset is like this one. -/
structure Restores (d d' : DatasetObject V A) : Prop extends SameContents d d' where
  names : d'.dimNames = d.dimNames
  actualSize : ∀ (i : ℕ) (x : Dim), d.dataspace.dim[i]? = some x → x.size = 0 →
    d'.getActualSize[i]? = d.getActualSize[i]?

/-- The dataset is written down, and another one that is opened from the text is like it. -/
def RoundTrips (env env' : Env V) (id : String) (d : DatasetObject V A) : Prop :=
  ∃ d₁ description d' named, d.metadataCreate env = .ok (d₁, description)
    ∧ (unloaded id).openMdParse env' description = .ok (.success, d', named) ∧ Restores d₁ d'

/-- The names of the dimensions are valid, and unlimited dimensions are as long as the fragments of
the table reach. -/
structure Recoverable (d : DatasetObject V A) : Prop where
  names : ∀ names, d.dimNames = some names → ∀ name ∈ names, isValidDatasetName name = true
  actualSize : ∀ (i : ℕ) (x : Dim), d.dataspace.dim[i]? = some x → x.size = 0 →
    d.getActualSize[i]? = some (reach d.shapes i)

theorem validDimNames_eq_iff : d.validDimNames = d.dimNames
    ↔ ∀ names, d.dimNames = some names → ∀ name ∈ names, isValidDatasetName name = true := by
  unfold validDimNames
  rcases d.dimNames with _ | names
  · simp
  · simp [Option.filter_some]

variable {y : Dataset V}

theorem written_getActualSize (hfix : Fixes d.toDataset y) :
    ({ d with toDataset := y } : DatasetObject V A).getActualSize = d.getActualSize := by
  rw [hfix.eq]
  rfl

/-- The unlimited dimensions of a dataset that is read back are as long as the fragments reach. -/
theorem SameContents.getActualSize {d' : DatasetObject V A} {description : Description V A}
    {id : String} {status : Status} {named : Bool} (hfix : Fixes d.toDataset y)
    (hsame : SameContents { d with toDataset := y } d')
    (hparse : (unloaded id).openMdParse env description = .ok (status, d', named))
    (hloaded : d'.status = .persistent) (hshapes : ∀ s, s ∈ d'.shapes ↔ s ∈ d.shapes)
    {i : ℕ} {x : Dim} (hi : d.dataspace.dim[i]? = some x) (hx : x.size = 0) :
    d'.getActualSize[i]? = some (reach d.shapes i) := by
  have hdim : d'.dataspace.dim = d.dataspace.dim := hsame.dim.trans (by rw [hfix.eq])
  rw [unloaded_sizeExact hparse (by simp [hloaded]), extent_getElem?, hdim, hi, Option.map_some,
    if_pos hx, reach_congr hshapes]

theorem RoundTrips.recoverable {id : String} (h : Storable env' d)
    (hr : RoundTrips env env' id d) : Recoverable d := by
  obtain ⟨y, description, d', named, hcreate, hfix, hparse, hsame, hnames, hshapes, hstatus⟩ :=
    reopens h env id
  obtain ⟨d₁, description', d'', named', hcreate', hparse', hres⟩ := hr
  obtain ⟨rfl, rfl⟩ := Prod.mk.inj (Except.ok.inj (hcreate.symm.trans hcreate'))
  obtain ⟨-, heq⟩ := Prod.mk.inj (Except.ok.inj (hparse.symm.trans hparse'))
  obtain ⟨rfl, -⟩ := Prod.mk.inj heq
  refine ⟨validDimNames_eq_iff.1 (hnames.symm.trans hres.names), fun i x hi hx => ?_⟩
  have hi' : y.dataspace.dim[i]? = some x := by rwa [hfix.eq]
  rw [← hsame.getActualSize hfix hparse hstatus hshapes hi hx, hres.actualSize i x hi' hx,
    written_getActualSize hfix]

/-- A dataset survives in its text exactly if the names of its dimensions are valid, and its
unlimited dimensions are as long as the fragments of its table reach. -/
theorem roundTrips_iff (h : Storable env' d) (env : Env V) (id : String) :
    RoundTrips env env' id d ↔ Recoverable d := by
  refine ⟨fun hr => hr.recoverable h, fun hr => ?_⟩
  obtain ⟨y, description, d', named, hcreate, hfix, hparse, hsame, hnames, hshapes, hstatus⟩ :=
    reopens h env id
  refine ⟨_, description, d', named, hcreate, hparse, hsame, ?_, fun i x hi hx => ?_⟩
  · exact hnames.trans (validDimNames_eq_iff.2 hr.names)
  · have hi' : d.dataspace.dim[i]? = some x := by rwa [hfix.eq] at hi
    rw [written_getActualSize hfix, hsame.getActualSize hfix hparse hstatus hshapes hi' hx,
      hr.actualSize i x hi' hx]

end RoundTrip

section Sample

/-- One unlimited dimension. -/
def seriesSpace : Dataspace := .createFull [⟨0, 0⟩] (.basic .int64)

/-- The fragment is stored on a backend that is configured. -/
def BackedBy (env : Env ℕ) (ds : Dataset ℕ) (r : ℕ) : Prop :=
  ∃ f b, ds.fragment r = .ok f ∧ f.dataspace.dims = 1 ∧ f.dataspace.type = seriesSpace.type
    ∧ f.id ≠ none ∧ f.backend = some b ∧ getBackend env b.id = some b

/-- Two elements are written through a grid with a subgrid. -/
theorem run_series : ∃ ds : Dataset ℕ, (Dataset.init seriesSpace none).run pairGridCalls = .ok ds
    ∧ ds.dataspace = seriesSpace ∧ ds.gridCount = 1 ∧ ds.getActualSize = [2]
    ∧ ds.table = [([⟨1, 2⟩], 0), ([⟨0, 1⟩], 1)] ∧ BackedBy (Env.calm 0) ds 0
    ∧ BackedBy (Env.calm 0) ds 1 :=
  ⟨_, rfl, rfl, rfl, rfl, rfl, ⟨_, _, rfl, rfl, rfl, nofun, rfl, rfl⟩,
    ⟨_, _, rfl, rfl, rfl, nofun, rfl, rfl⟩⟩

theorem series_storable {ds : Dataset ℕ} (hI : Inv ds) (hG : Grid.Geometry ds.table ds.gridHeap)
    (hspace : ds.dataspace = seriesSpace) (hs : ∀ e ∈ ds.table, BackedBy (Env.calm 0) ds e.2)
    {names : Option (List String)} (hn : ∀ l, names = some l → l.length = 1) :
    Storable (Env.calm 0) (⟨ds, "t", some [], names⟩ : DatasetObject ℕ ℕ) where
  inv := hI
  geometry := hG
  loaded := nofun
  offset := by simp [hspace, seriesSpace, Dataspace.createFull]
  names l hl := by
    rw [Dataset.dims, hspace]
    exact hn l hl
  stored e he f hf := by
    obtain ⟨f', b, hf', hdims, htype, hid, hb, hget⟩ := hs e he
    obtain rfl := Except.ok.inj (hf.symm.trans hf')
    refine ⟨hdims.trans ?_, htype.trans (by rw [hspace]), hid, b, hb, hget⟩
    rw [Dataset.dims, hspace]
    rfl

theorem roundTrips_iff_series : ∃ ds : Dataset ℕ,
    (Dataset.init seriesSpace none).run pairGridCalls = .ok ds ∧ ds.gridCount = 1
      ∧ RoundTrips (Env.calm 0) (Env.calm 0) "" (⟨ds, "t", some [], some ["x"]⟩ :
        DatasetObject ℕ ℕ) := by
  obtain ⟨ds, hrun, hspace, hcount, hsize, htable, h₀, h₁⟩ := run_series
  obtain ⟨hI, hG⟩ := Dataset.run_geometry hrun
  have hs : ∀ e ∈ ds.table, BackedBy (Env.calm 0) ds e.2 := by simp [htable, h₀, h₁]
  refine ⟨ds, hrun, hcount, (roundTrips_iff (series_storable hI hG hspace hs ?_) _ _).2 ⟨?_, ?_⟩⟩
  · rintro l ⟨⟩
    rfl
  · rintro names ⟨⟩ name hname
    obtain rfl := List.mem_singleton.1 hname
    decide
  · intro i x hi _
    have hi : seriesSpace.dim[i]? = some x := hspace ▸ hi
    obtain _ | i := i
    · rw [Dataset.shapes]
      dsimp only
      rw [hsize, htable]
      decide
    · cases hi

/-- Rank 0 has written nothing, and commits an element of another rank. -/
theorem mpiDatasetCommit_series : ∃ (ds : Dataset ℕ) (stored : Option Metadata),
    (Dataset.init seriesSpace none).mpiDatasetCommit (Env.calm 0)
        [[Dataset.elementDescription 0]] none = .ok (ds, stored)
      ∧ ds.dataspace = seriesSpace ∧ ds.getActualSize = [0] ∧ ds.table = [([⟨0, 1⟩], 0)]
      ∧ (ds.gridHeap = [] ∧ ds.grids = [] ∧ ds.gridCount = 0 ∧ ds.incompleteGridCount = 0)
      ∧ (∃ f, ds.fragments[0]? = some f ∧ f.freed = false ∧ f.shape = [⟨0, 1⟩])
      ∧ BackedBy (Env.calm 0) ds 0 :=
  ⟨_, _, rfl, rfl, rfl, rfl, ⟨rfl, rfl, rfl, rfl⟩, ⟨_, rfl, rfl, rfl⟩,
    ⟨_, _, rfl, rfl, rfl, nofun, rfl, rfl⟩⟩

/-- A dataset with one fragment and no grids. -/
theorem inv_of_singleton {ds : Dataset V} {s : Hypercube} {r : ℕ} (htable : ds.table = [(s, r)])
    (hs : s.length = ds.dims ∧ ¬ Hypercube.isEmpty s)
    (hf : ∃ f, ds.fragments[r]? = some f ∧ f.freed = false ∧ f.shape = s)
    (hgrids : ds.gridHeap = [] ∧ ds.grids = [] ∧ ds.gridCount = 0 ∧ ds.incompleteGridCount = 0) :
    Inv ds ∧ Grid.Geometry ds.table ds.gridHeap := by
  obtain ⟨hheap, hlist, hcount, hincomplete⟩ := hgrids
  have hshapes : ds.shapes = [s] := by rw [Dataset.shapes, htable]; rfl
  refine ⟨⟨⟨by simp [hshapes], by simpa [htable] using hf⟩, ?_, ⟨⟨?_, ?_, ?_, ?_⟩,
    ⟨?_, ?_, ?_, ?_, ?_⟩⟩⟩, ⟨?_, ?_⟩⟩
  · rw [hshapes]
    exact List.forall_mem_singleton.2 hs
  all_goals simp [hheap, hlist, hcount, hincomplete]

/-- A name that is not valid stays in the array when it is refused, and it is lost with the others.
The elements of other ranks are not counted before the dataset is opened again. -/
theorem not_roundTrips :
    (∃ (ds : Dataset ℕ) (d₁ d₂ : DatasetObject ℕ ℕ),
      (Dataset.init seriesSpace none).run pairGridCalls = .ok ds
        ∧ nameDims ⟨ds, "t", some [], none⟩ [some "x"] = .ok (.success, d₁)
        ∧ d₁.renameDim "a b" 0 = .ok (.error, d₂) ∧ Storable (Env.calm 0) d₂
        ∧ ¬ RoundTrips (Env.calm 0) (Env.calm 0) "" d₂)
    ∧ ∃ (ds : Dataset ℕ) (stored : Option Metadata),
      (Dataset.init seriesSpace none).mpiDatasetCommit (Env.calm 0)
          [[Dataset.elementDescription 0]] none = .ok (ds, stored)
        ∧ Storable (Env.calm 0) (⟨ds, "t", some [], none⟩ : DatasetObject ℕ ℕ)
        ∧ ¬ RoundTrips (Env.calm 0) (Env.calm 0) "" (⟨ds, "t", some [], none⟩ :
          DatasetObject ℕ ℕ) := by
  refine ⟨?_, ?_⟩
  · obtain ⟨ds, hrun, hspace, hcount, hsize, htable, h₀, h₁⟩ := run_series
    obtain ⟨hI, hG⟩ := Dataset.run_geometry hrun
    have hdims : ds.dims = 1 := by
      rw [Dataset.dims, hspace]
      rfl
    have hst : Storable (Env.calm 0) (⟨{ ds with status := .dirty }, "t", some [], some ["a b"]⟩ :
        DatasetObject ℕ ℕ) := by
      refine series_storable (hI.relabel .dirty ds.fillValue) hG hspace ?_ ?_
      · intro e he
        have he : e ∈ ds.table := he
        rw [htable] at he
        rcases List.mem_pair.1 he with rfl | rfl
        · exact h₀
        · exact h₁
      · rintro l ⟨⟩
        rfl
    refine ⟨ds, ⟨{ ds with status := .dirty }, "t", some [], some ["x"]⟩, _, hrun, ?_, ?_, hst,
      fun h => ?_⟩
    · have hvalid := @nameDims_map_some ℕ ℕ ⟨ds, "t", some [], none⟩ ["x"] hdims.symm
      rwa [if_pos (by decide)] at hvalid
    · exact @renameDim_of_invalid ℕ ℕ _ ["x"] "a b" 0 (hdims.symm ▸ Nat.zero_lt_one) rfl hdims.symm
        (by decide)
    · have hname := (h.recoverable hst).names ["a b"] rfl "a b" (List.mem_singleton_self _)
      exact absurd hname (by decide)
  · obtain ⟨ds, stored, hcommit, hspace, hsize, htable, hgrids, hf, hb⟩ := mpiDatasetCommit_series
    have hshape : List.length [(⟨0, 1⟩ : Range)] = ds.dims ∧ ¬ Hypercube.isEmpty [⟨0, 1⟩] := by
      rw [Dataset.dims, hspace]
      decide
    obtain ⟨hI, hG⟩ := inv_of_singleton htable hshape hf hgrids
    have hst : Storable (Env.calm 0) (⟨ds, "t", some [], none⟩ : DatasetObject ℕ ℕ) :=
      series_storable hI hG hspace (by simp [htable, hb]) (by simp)
    refine ⟨ds, stored, hcommit, hst, fun h => ?_⟩
    have hreach := (h.recoverable hst).actualSize 0 ⟨0, 0⟩ (by rw [hspace]; rfl) rfl
    dsimp only at hreach
    rw [hsize, Dataset.shapes, htable] at hreach
    exact absurd hreach (by decide)

end Sample

end DatasetObject

end Esdm
